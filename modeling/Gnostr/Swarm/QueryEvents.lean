import Gnostr.Swarm.Queries
import Mathlib.Data.Rat.Floor

/-!
# Answers to queries

`queryEvents` of `template/db.js`: the documents found for the queries of all filters, with one
document for an id, the newest first, cut at the largest limit of the filters. The limits are
passed to `Math.max` as one array, which becomes a number when it has one item and `NaN` when it
has more, so with more than one filter nothing is cut. The documents are sorted by the difference of
their times, which is no number where a time is none, and throws where a time cannot be converted.

`query_events_answers_iff` says when the answer is one that a subscription can expect.
-/

namespace Gnostr.Swarm

open Wire

/-! ## `queryEvents` -/

/-- The engine and the database, of which nothing is assumed here. -/
structure Finder extends Engine where
  /-- `events.find(query).sort('created_at', -1)`. -/
  find : FieldQuery → List Json
  /-- How `sort` leaves documents when `b.created_at - a.created_at` is not always a number. -/
  shuffle : List Json → List Json
  shuffle_perm : ∀ docs, (shuffle docs).Perm docs

/-- `Object.keys(filter).length`, as a truth value. -/
def hasKeys : Json → Except Thrown Bool
  | .null => .error .typeError
  | .obj ms => .ok !ms.isEmpty
  | .arr vs => .ok !vs.isEmpty
  | .str t => .ok !t.isEmpty
  | _ => .ok false

/-- Values that count as false. -/
def isFalsy (x : Value) : Bool :=
  match x with
  | none | some .null | some (.bool false) | some (.str []) => true
  | x => number x = some 0

/-- `filter.limit || 0`. -/
def limitOf (filter : Json) : Except Thrown Json := do
  let limit ← get "limit" (some filter)
  return if isFalsy limit then .int 0 else limit.getD .null

/-- `Math.max(limits)`, of the array, whose text is that of its only item. With two items or more
there is a comma in it, which no numeral has. -/
def mathMax (engine : Engine) : List Json → Except Thrown (Option Extended)
  | [] => .ok (some ((0 : Rat) : WithTop Rat))
  | [limit] =>
      match number (some limit) with
      | some q => .ok (some (q : WithTop Rat))
      | none => do return engine.textNumber (← jsonText engine (.arr [limit]))
  | limits => do
      let _ ← jsonText engine (.arr limits)
      return none

/-- The id of a document. -/
def idOf (doc : Json) : Value :=
  doc.member (ascii "id")

/-- `queryResult.set(doc.id, doc)`. -/
def setResult (results : List Json) (doc : Json) : List Json :=
  if results.any fun old => strictEqual (idOf old) (idOf doc) then
    results.map fun old => if strictEqual (idOf old) (idOf doc) then doc else old
  else results ++ [doc]

/-- The values of `queryResult` at the end of the loop. -/
def queryResult (finder : Finder) (queries : List FieldQuery) : List Json :=
  (queries.flatMap finder.find).foldl setResult []

/-- The time of a document, as the subtraction takes it; nothing stands for `NaN`. -/
def timeOf (engine : Engine) (doc : Json) : Except Thrown (Option Extended) :=
  toNumber engine (doc.member (ascii "created_at"))

/-- The time of a document that has one. -/
def timeKey (engine : Engine) (doc : Json) : Extended :=
  ((timeOf engine doc).toOption.getD none).getD ⊥

/-- `sort((a, b) => b.created_at - a.created_at)`. A single document is not compared, and each of
more is. -/
def sortNewest (finder : Finder) (docs : List Json) : Except Thrown (List Json) :=
  if docs.length ≤ 1 then .ok docs
  else do
    let times ← docs.mapM (timeOf finder.toEngine)
    return if times.all Option.isSome then
        docs.mergeSort fun a b => timeKey finder.toEngine b ≤ timeKey finder.toEngine a
      else finder.shuffle docs

/-- `slice(0, limit > 0 ? limit : defaultLimit)`. -/
def sliceLimit (limit : Option Extended) (docs : List Json) : List Json :=
  match limit with
  | some (.some (.some q)) => if 0 < q then docs.take q.floor.toNat else docs
  | _ => docs

/-- `queryEvents`. -/
def queryEvents (finder : Finder) (filters : Option (List Json)) (hasLimit : Bool) :
    Except Thrown (List Json) :=
  match filters with
  | none => .ok (finder.find [])
  | some filters => do
      if (← filters.mapM hasKeys).all (!·) then return finder.find []
      let queries ← buildQueries finder.toEngine filters
      let limit ← mathMax finder.toEngine (← filters.mapM limitOf)
      let queryArray ← sortNewest finder (queryResult finder queries)
      return if hasLimit then sliceLimit limit queryArray else queryArray

/-! ## What an answer should be -/

/-- Filters as values. -/
def objects (filters : List FilterObj) : List Json :=
  filters.map fun filter => .obj filter.members

/-- The positive limits of filters. -/
def positiveLimits (filters : List FilterObj) : Set Rat :=
  {q | 0 < q ∧ ∃ filter ∈ objects filters, number (filter.member (ascii "limit")) = some q}

/-- Two documents with different ids. -/
def Differ (a b : Json) : Prop :=
  strictEqual (idOf a) (idOf b) = false

/-- Two documents with times that are numbers, the first no older than the second. -/
def NoOlder (engine : Engine) (a b : Json) : Prop :=
  ∃ p q, timeOf engine a = .ok (some p) ∧ timeOf engine b = .ok (some q) ∧ q ≤ p

/-- An answer to a query: documents of the collection that match a query, with no id twice, the
newest first; no more of them than the largest limit, and no older than what was cut. -/
structure Answers (finder : Finder) (db : Database) (docs : List Json) (filters : List FilterObj)
    (hasLimit : Bool) (queries : List FieldQuery) (answer : List Json) : Prop where
  distinct : answer.Pairwise Differ
  ordered : answer.Pairwise (NoOlder finder.toEngine)
  found : ∀ doc ∈ answer, doc ∈ docs ∧ ∃ query ∈ queries, db.matches query doc = true
  limited : hasLimit = true → ∀ m, IsGreatest (positiveLimits filters) m →
    (answer.length : Rat) ≤ m
  newest : ∃ rest, queryEvents finder (some (objects filters)) false = .ok (answer ++ rest) ∧
    ∀ a ∈ answer, ∀ b ∈ rest, NoOlder finder.toEngine a b

/-! ## Results -/

/-- Ids differ in both directions. -/
theorem Differ.symm {a b : Json} (h : Differ a b) : Differ b a := by
  unfold Differ at h ⊢
  by_contra hsame
  rw [Bool.not_eq_false] at hsame
  rw [strict_equal_symm hsame] at h
  cases h

/-- A document takes the place of the one with its id. -/
theorem set_result_differ {results : List Json} (h : results.Pairwise Differ) (doc : Json) :
    (setResult results doc).Pairwise Differ := by
  unfold setResult
  split
  · rw [List.pairwise_map]
    refine h.imp fun {a b} hab => ?_
    split_ifs with ha hb hb
    · have hsame := strict_equal_trans ha (strict_equal_symm hb)
      rw [hab] at hsame
      cases hsame
    · exact Differ.symm (by simpa [Differ] using hb)
    · simpa [Differ] using ha
    · exact hab
  · next hnone =>
    rw [List.pairwise_append]
    refine ⟨h, List.pairwise_singleton _ _, fun old hold new hnew => ?_⟩
    rw [List.mem_singleton.mp hnew]
    have hno : ¬ ∃ old ∈ results, strictEqual (idOf old) (idOf doc) = true := by
      simpa using hnone
    simpa [Differ] using fun hsame => hno ⟨old, hold, hsame⟩

/-- Of the others, those with another id are left. -/
theorem mem_set_result_iff {results : List Json} {doc other : Json} :
    other ∈ setResult results doc ↔ other = doc ∨ other ∈ results ∧ Differ other doc := by
  unfold setResult Differ
  split
  · next hsome =>
    obtain ⟨same, hsame, hid⟩ := List.any_eq_true.mp hsome
    rw [List.mem_map]
    constructor
    · rintro ⟨old, hold, rfl⟩
      split
      · exact .inl rfl
      · next hdiffer => exact .inr ⟨hold, Bool.eq_false_iff.mpr hdiffer⟩
    · rintro (rfl | ⟨hold, hdiffer⟩)
      · exact ⟨same, hsame, if_pos hid⟩
      · exact ⟨other, hold, if_neg (by rw [hdiffer]; exact Bool.false_ne_true)⟩
  · next hnone =>
    have hdiffer : ∀ old ∈ results, strictEqual (idOf old) (idOf doc) = false := by
      simpa using hnone
    rw [List.mem_append, List.mem_singleton, or_comm]
    exact or_congr_right ⟨fun hold => ⟨hold, hdiffer other hold⟩, And.left⟩

/-- A document remains when no later one has its id. -/
def Remains (docs : List Json) (doc : Json) : Prop :=
  ∃ earlier later, docs = earlier ++ doc :: later ∧ ∀ other ∈ later, Differ doc other

/-- What remains was there. -/
theorem Remains.mem {docs : List Json} {doc : Json} (h : Remains docs doc) : doc ∈ docs := by
  obtain ⟨earlier, later, rfl, -⟩ := h
  exact List.mem_append_right _ List.mem_cons_self

/-- With one more document, those with another id remain. -/
theorem remains_append_iff {docs : List Json} {last doc : Json} :
    Remains (docs ++ [last]) doc ↔ doc = last ∨ Remains docs doc ∧ Differ doc last := by
  constructor
  · rintro ⟨earlier, later, hdocs, hlater⟩
    rcases List.eq_nil_or_concat' later with rfl | ⟨init, other, rfl⟩
    · obtain ⟨-, hlast⟩ := List.append_inj' hdocs rfl
      exact .inl (by simpa using hlast.symm)
    · rw [← List.cons_append, ← List.append_assoc] at hdocs
      obtain ⟨hinit, hlast⟩ := List.append_inj' hdocs rfl
      obtain rfl : last = other := by simpa using hlast
      refine .inr ⟨⟨earlier, init, hinit, fun other hother => ?_⟩, ?_⟩
      · exact hlater other (List.mem_append_left _ hother)
      · exact hlater last (List.mem_append_right _ List.mem_cons_self)
  · rintro (rfl | ⟨⟨earlier, later, rfl, hlater⟩, hlast⟩)
    · exact ⟨docs, [], rfl, fun other hother => absurd hother List.not_mem_nil⟩
    · refine ⟨earlier, later ++ [last], by simp, forall_mem_concat hlater hlast⟩

/-- What the loop collects: the found documents that remain, with no id twice. -/
theorem foldl_set_result (docs : List Json) :
    (docs.foldl setResult []).Pairwise Differ ∧
      ∀ doc, doc ∈ docs.foldl setResult [] ↔ Remains docs doc := by
  induction docs using List.reverseRecOn with
  | nil =>
      refine ⟨List.Pairwise.nil, fun doc => ⟨fun h => absurd h List.not_mem_nil, fun h => ?_⟩⟩
      exact absurd h.mem List.not_mem_nil
  | append_singleton docs last ih =>
      rw [List.foldl_append]
      refine ⟨set_result_differ ih.1 last, fun doc => ?_⟩
      show doc ∈ setResult _ last ↔ _
      rw [mem_set_result_iff, ih.2, remains_append_iff]

/-! ## Times -/

/-- Documents are sorted unless there are two and a time cannot be converted. -/
theorem sort_newest_ok_iff {finder : Finder} {docs : List Json} :
    (∃ sorted, sortNewest finder docs = .ok sorted) ↔
      docs.length ≤ 1 ∨ ∀ doc ∈ docs, ∃ time, timeOf finder.toEngine doc = .ok time := by
  unfold sortNewest
  split
  · next hsingle => exact iff_of_true ⟨docs, rfl⟩ (.inl hsingle)
  · next hmany =>
    constructor
    · rintro ⟨sorted, hsorted⟩
      obtain ⟨times, htimes, -⟩ := bind_eq_ok hsorted
      exact .inr (ok_of_map_m htimes)
    · rintro (hsingle | htimes)
      · exact absurd hsingle hmany
      · obtain ⟨times, htimes, -⟩ := (map_m_forall_iff (R := fun _ _ => True)).mpr fun doc hdoc =>
          (htimes doc hdoc).imp fun _ h => ⟨h, trivial⟩
        rw [htimes]
        exact ⟨_, rfl⟩

/-- Sorting keeps the documents. -/
theorem sort_newest_perm {finder : Finder} {docs sorted : List Json}
    (h : sortNewest finder docs = .ok sorted) : sorted.Perm docs := by
  unfold sortNewest at h
  split at h
  · obtain rfl := Except.ok.inj h
    exact List.Perm.refl docs
  · obtain ⟨times, -, h⟩ := bind_eq_ok h
    obtain rfl := Except.ok.inj h
    split
    · exact List.mergeSort_perm _ _
    · exact finder.shuffle_perm docs

/-- The key of a document with a time is that time. -/
theorem time_key_eq {engine : Engine} {doc : Json} {q : Extended}
    (h : timeOf engine doc = .ok (some q)) : timeKey engine doc = q := by
  rw [timeKey, h]
  rfl

/-- Documents with a time are sorted by it. -/
theorem sort_newest_ordered {finder : Finder} {docs sorted : List Json}
    (h : sortNewest finder docs = .ok sorted) (hmany : 1 < docs.length)
    (htimes : ∀ doc ∈ docs, ∃ q, timeOf finder.toEngine doc = .ok (some q)) :
    sorted.Pairwise (NoOlder finder.toEngine) := by
  have hperm := sort_newest_perm h
  rw [sortNewest, if_neg (by omega)] at h
  obtain ⟨times, hrun, hsorted⟩ := bind_eq_ok h
  have hkeys : docs.mapM (timeOf finder.toEngine) =
      .ok (docs.map fun doc => some (timeKey finder.toEngine doc)) := by
    refine map_m_eq_ok fun doc hdoc => ?_
    obtain ⟨q, hq⟩ := htimes doc hdoc
    rw [hq, time_key_eq hq]
  have hall : times.all Option.isSome = true := by
    obtain rfl := Except.ok.inj (hkeys.symm.trans hrun)
    simp
  rw [if_pos hall] at hsorted
  obtain rfl := Except.ok.inj hsorted
  have hpairs : (docs.mergeSort fun a b =>
      decide (timeKey finder.toEngine b ≤ timeKey finder.toEngine a)).Pairwise fun a b =>
        decide (timeKey finder.toEngine b ≤ timeKey finder.toEngine a) = true := by
    refine List.pairwise_mergeSort (fun a b c hab hbc => ?_) (fun a b => ?_) docs
    · simp only [decide_eq_true_eq] at hab hbc ⊢
      exact hbc.trans hab
    · simpa using le_total _ _
  refine hpairs.imp_of_mem fun {a b} ha hb hle => ?_
  obtain ⟨p, hp⟩ := htimes a (hperm.mem_iff.mp ha)
  obtain ⟨q, hq⟩ := htimes b (hperm.mem_iff.mp hb)
  rw [time_key_eq hp, time_key_eq hq, decide_eq_true_eq] at hle
  exact ⟨p, q, hp, hq, hle⟩

/-! ## Ids -/

/-- The id of a document, when it is compared by what it is. -/
def keyOf (doc : Json) : Option Primitive :=
  primitive (idOf doc)

/-- The number of different ids of documents. An id that is an array or an object is no other's. -/
def differentIds (docs : List Json) : Nat :=
  (docs.filterMap keyOf).toFinset.card + docs.countP fun doc => (keyOf doc).isNone

/-- A document with the same id is there when its key is. -/
theorem any_same_id {results : List Json} {doc : Json} :
    (results.any fun old => strictEqual (idOf old) (idOf doc)) = true ↔
      ∃ p, keyOf doc = some p ∧ p ∈ results.filterMap keyOf := by
  simp only [List.any_eq_true, strict_equal_iff, List.mem_filterMap, keyOf]
  constructor
  · rintro ⟨old, hold, p, hp, hdoc⟩
    exact ⟨p, hdoc, old, hold, hp⟩
  · rintro ⟨p, hdoc, old, hold, hp⟩
    exact ⟨old, hold, p, hp, hdoc⟩

/-- The loop keeps every id, and one document for each. -/
theorem keys_set_result (results : List Json) (doc : Json) :
    ((setResult results doc).filterMap keyOf).toFinset =
      ((results ++ [doc]).filterMap keyOf).toFinset := by
  unfold setResult
  split
  · next hsame =>
    obtain ⟨p, hp, hmem⟩ := any_same_id.mp hsame
    have hkeys : (results.map fun old =>
        if strictEqual (idOf old) (idOf doc) then doc else old).filterMap keyOf =
          results.filterMap keyOf := by
      rw [List.filterMap_map]
      refine List.filterMap_congr fun old hold => ?_
      simp only [Function.comp_apply]
      split
      · next heq =>
        obtain ⟨q, hold, hdoc⟩ := (strict_equal_iff _ _).mp heq
        exact hdoc.trans hold.symm
      · rfl
    ext q
    simp only [hkeys, List.mem_toFinset, List.filterMap_append, List.mem_append,
      List.filterMap_cons, hp, List.filterMap_nil, List.mem_singleton]
    constructor
    · exact .inl
    · rintro (hq | rfl)
      · exact hq
      · exact hmem
  · rfl

/-- One document more, unless it takes the place of another. -/
theorem length_set_result (results : List Json) (doc : Json) :
    (setResult results doc).length = if ∃ p, keyOf doc = some p ∧ p ∈ results.filterMap keyOf
      then results.length else results.length + 1 := by
  simp only [← any_same_id, setResult]
  split
  · exact List.length_map _
  · exact List.length_append

/-- One more document adds an id unless it is there already. -/
theorem different_ids_append (docs : List Json) (doc : Json) :
    differentIds (docs ++ [doc]) = if ∃ p, keyOf doc = some p ∧ p ∈ docs.filterMap keyOf
      then differentIds docs else differentIds docs + 1 := by
  unfold differentIds
  rw [List.filterMap_append, List.countP_append, List.toFinset_append]
  cases hkey : keyOf doc with
  | none => simp [hkey, Nat.add_assoc]
  | some p =>
      have hinsert : (docs.filterMap keyOf).toFinset ∪ (List.filterMap keyOf [doc]).toFinset =
          Insert.insert p (docs.filterMap keyOf).toFinset := by
        rw [List.filterMap_cons, hkey, Finset.union_comm, Finset.insert_eq]
        rfl
      rw [hinsert]
      by_cases hmem : p ∈ docs.filterMap keyOf
      · rw [Finset.insert_eq_of_mem (List.mem_toFinset.mpr hmem), if_pos ⟨p, rfl, hmem⟩]
        simp [hkey]
      · rw [Finset.card_insert_of_notMem (by simpa using hmem), if_neg (by simpa using hmem)]
        simp [hkey, Nat.add_right_comm]

/-- What the loop collects is one document for each id. -/
theorem length_foldl_set_result (docs : List Json) :
    (docs.foldl setResult []).length = differentIds docs ∧
      ((docs.foldl setResult []).filterMap keyOf).toFinset = (docs.filterMap keyOf).toFinset := by
  induction docs using List.reverseRecOn with
  | nil => exact ⟨rfl, rfl⟩
  | append_singleton docs last ih =>
      obtain ⟨hlen, hkeys⟩ := ih
      have hmem : ∀ p, p ∈ (docs.foldl setResult []).filterMap keyOf ↔
          p ∈ docs.filterMap keyOf := by
        intro p
        rw [← List.mem_toFinset, hkeys, List.mem_toFinset]
      rw [List.foldl_append]
      constructor
      · rw [different_ids_append, ← hlen]
        simp only [← hmem]
        exact length_set_result _ last
      · refine (keys_set_result _ last).trans ?_
        rw [List.filterMap_append, List.toFinset_append, hkeys, List.filterMap_append,
          List.toFinset_append]

/-! ## Limits -/

/-- A number that is not zero counts as true. -/
theorem not_falsy_of_number {x : Value} {q : Rat} (h : number x = some q) (hq : q ≠ 0) :
    isFalsy x = false := by
  unfold isFalsy
  split
  all_goals first
    | cases h
    | simpa [h] using hq

/-- Where the limits give no number, nothing is cut. -/
theorem slice_limit_none (docs : List Json) : sliceLimit none docs = docs := rfl

/-- A positive limit that is finite. -/
theorem slice_limit_of_pos {q : Rat} (h : 0 < q) (docs : List Json) :
    sliceLimit (some (q : WithTop Rat)) docs = docs.take q.floor.toNat :=
  if_pos h

/-- What is left is the beginning. -/
theorem slice_limit_prefix (limit : Option Extended) (docs : List Json) :
    sliceLimit limit docs <+: docs := by
  unfold sliceLimit
  split
  · split_ifs
    · exact List.take_prefix _ _
    · exact List.prefix_refl _
  · exact List.prefix_refl _

/-- It is no longer than the limit. -/
theorem length_slice_limit {q : Rat} (h : 0 < q) (docs : List Json) :
    ((sliceLimit (some (q : WithTop Rat)) docs).length : Rat) ≤ q := by
  have hfloor : 0 ≤ q.floor := Rat.le_floor_iff.mpr (by simpa using h.le)
  have hle : (q.floor : Rat) ≤ q := Rat.floor_le q
  rw [slice_limit_of_pos h, List.length_take]
  calc ((min q.floor.toNat docs.length : Nat) : Rat)
      ≤ (q.floor.toNat : Rat) := by exact_mod_cast Nat.min_le_left _ _
    _ = (q.floor : Rat) := by exact_mod_cast Int.toNat_of_nonneg hfloor
    _ ≤ q := hle

/-- A positive limit below one leaves nothing. -/
def LeavesNothing (limit : Option Extended) : Prop :=
  ∃ q : Rat, limit = some ((q : WithTop Rat) : Extended) ∧ 0 < q ∧ q < 1

/-- Nothing is left of something only for a limit below one. -/
theorem slice_limit_eq_nil_iff {limit : Option Extended} {docs : List Json} (h : docs ≠ []) :
    sliceLimit limit docs = [] ↔ LeavesNothing limit := by
  constructor
  · intro hnil
    unfold sliceLimit at hnil
    split at hnil
    · next q =>
      split_ifs at hnil with hpos
      · have hfloor : q.floor.toNat = 0 := by
          simpa [h] using hnil
        refine ⟨q, rfl, hpos, ?_⟩
        exact_mod_cast Rat.floor_lt_iff.mp (show q.floor < 1 by omega)
      · exact absurd hnil h
    · exact absurd hnil h
  · rintro ⟨q, rfl, hpos, hlt⟩
    have hfloor : q.floor < 1 := Rat.floor_lt_iff.mpr (by exact_mod_cast hlt)
    rw [slice_limit_of_pos hpos, show q.floor.toNat = 0 by omega, List.take_zero]

/-- The limit a filter passes to `Math.max`. -/
def limitValue (filter : Json) : Json :=
  if isFalsy (filter.member (ascii "limit")) then .int 0
  else (filter.member (ascii "limit")).getD .null

/-- Filters are objects. -/
def AreFilters (filters : List Json) : Prop :=
  ∀ filter ∈ filters, ∃ members, filter = .obj members

/-- Objects are filters. -/
theorem are_filters_objects (filters : List FilterObj) : AreFilters (objects filters) := by
  intro filter hfilter
  obtain ⟨object, -, rfl⟩ := List.mem_map.mp hfilter
  exact ⟨object.members, rfl⟩

/-- Their limits can be looked at. -/
theorem limits_eq {filters : List Json} (h : AreFilters filters) :
    filters.mapM limitOf = .ok (filters.map limitValue) := by
  refine map_m_eq_ok fun filter hfilter => ?_
  obtain ⟨members, rfl⟩ := h filter hfilter
  rfl

/-- More than one limit gives no number. -/
theorem math_max_many {engine : Engine} {limits : List Json} {limit : Option Extended}
    (h : mathMax engine limits = .ok limit) (hmany : 2 ≤ limits.length) : limit = none := by
  match limits with
  | [] | [_] => simp at hmany
  | _ :: _ :: _ =>
      obtain ⟨_, -, hnone⟩ := bind_eq_ok h
      exact (Except.ok.inj hnone).symm

/-- The limit of a single filter is its own. -/
theorem math_max_single (engine : Engine) {filters : List FilterObj} {m : Rat}
    (hm : m ∈ positiveLimits filters) (hone : filters.length = 1) :
    mathMax engine ((objects filters).map limitValue) = .ok (some (m : WithTop Rat)) := by
  obtain ⟨filter, rfl⟩ := List.length_eq_one_iff.mp hone
  obtain ⟨hpos, other, hother, hnumber⟩ := hm
  rw [objects, List.map_singleton, List.mem_singleton] at hother
  subst hother
  have hlimit : number (some (limitValue (.obj filter.members))) = some m := by
    rw [limitValue, if_neg (by simp [not_falsy_of_number hnumber hpos.ne'])]
    cases hvalue : (Json.obj filter.members).member (ascii "limit") with
    | none =>
        rw [hvalue] at hnumber
        cases hnumber
    | some limit =>
        rw [hvalue] at hnumber
        exact hnumber
  rw [objects, List.map_singleton, List.map_singleton, mathMax, hlimit]

/-! ## When an answer is right -/

/-- Whether a filter that is an object has a key. -/
def hasMembers : Json → Bool
  | .obj ms => !ms.isEmpty
  | _ => false

/-- And so can their keys. -/
theorem has_keys_eq {filters : List Json} (h : AreFilters filters) :
    filters.mapM hasKeys = .ok (filters.map hasMembers) := by
  refine map_m_eq_ok fun filter hfilter => ?_
  obtain ⟨members, rfl⟩ := h filter hfilter
  rfl

/-- With a filter that has a key, the queries are made, the limits converted and what is found is
sorted. -/
theorem query_events_eq (finder : Finder) {filters : List Json} (h : AreFilters filters)
    (hkeys : ∃ filter ∈ filters, hasMembers filter = true) (hasLimit : Bool) :
    queryEvents finder (some filters) hasLimit =
      (buildQueries finder.toEngine filters >>= fun queries =>
        mathMax finder.toEngine (filters.map limitValue) >>= fun limit =>
          sortNewest finder (queryResult finder queries) >>= fun sorted =>
            .ok (if hasLimit then sliceLimit limit sorted else sorted)) := by
  have hsome : ((filters.map hasMembers).all (!·)) = false := by
    obtain ⟨filter, hfilter, hmembers⟩ := hkeys
    rw [List.all_eq_false]
    exact ⟨true, List.mem_map.mpr ⟨filter, hfilter, hmembers⟩, by simp⟩
  simp only [queryEvents, has_keys_eq h, hsome, limits_eq h, bind, Except.bind, pure, Except.pure]
  rfl

/-- A filter with a member has a key. -/
theorem has_members_objects {filters : List FilterObj}
    (h : ∃ filter ∈ filters, filter.members ≠ []) :
    ∃ filter ∈ objects filters, hasMembers filter = true := by
  obtain ⟨filter, hfilter, hne⟩ := h
  refine ⟨.obj filter.members, List.mem_map.mpr ⟨filter, hfilter, rfl⟩, ?_⟩
  simpa [hasMembers] using hne

/-- A call that returns has made its queries, converted its limits and sorted what it found. -/
theorem query_events_ok {finder : Finder} {filters : List FilterObj} {hasLimit : Bool}
    {answer : List Json} (hkeys : ∃ filter ∈ filters, filter.members ≠ [])
    (h : queryEvents finder (some (objects filters)) hasLimit = .ok answer) :
    ∃ queries limit sorted, buildQueries finder.toEngine (objects filters) = .ok queries ∧
      mathMax finder.toEngine ((objects filters).map limitValue) = .ok limit ∧
      sortNewest finder (queryResult finder queries) = .ok sorted ∧
      answer = if hasLimit then sliceLimit limit sorted else sorted := by
  rw [query_events_eq finder (are_filters_objects filters) (has_members_objects hkeys)] at h
  obtain ⟨queries, hqueries, h⟩ := bind_eq_ok h
  obtain ⟨limit, hlimit, h⟩ := bind_eq_ok h
  obtain ⟨sorted, hsorted, h⟩ := bind_eq_ok h
  exact ⟨queries, limit, sorted, hqueries, hlimit, hsorted, (Except.ok.inj h).symm⟩

/-- With these, it returns. -/
theorem query_events_of_ok {finder : Finder} {filters : List FilterObj}
    {queries : List FieldQuery} {limit : Option Extended} {sorted : List Json}
    (hkeys : ∃ filter ∈ filters, filter.members ≠ [])
    (hqueries : buildQueries finder.toEngine (objects filters) = .ok queries)
    (hlimit : mathMax finder.toEngine ((objects filters).map limitValue) = .ok limit)
    (hsorted : sortNewest finder (queryResult finder queries) = .ok sorted) (hasLimit : Bool) :
    queryEvents finder (some (objects filters)) hasLimit =
      .ok (if hasLimit then sliceLimit limit sorted else sorted) := by
  rw [query_events_eq finder (are_filters_objects filters) (has_members_objects hkeys), hqueries]
  show (mathMax finder.toEngine _ >>= _) = _
  rw [hlimit]
  show (sortNewest finder _ >>= _) = _
  rw [hsorted]
  rfl

/-- The call returns an answer to its filters. -/
def Answered (finder : Finder) (db : Database) (docs : List Json) (filters : List FilterObj)
    (hasLimit : Bool) : Prop :=
  ∃ queries answer, buildQueries finder.toEngine (objects filters) = .ok queries ∧
    queryEvents finder (some (objects filters)) hasLimit = .ok answer ∧
    Answers finder db docs filters hasLimit queries answer

/-- The documents of a collection that match, query by query. -/
def matching (db : Database) (docs : List Json) (queries : List FieldQuery) : List Json :=
  queries.flatMap fun query => docs.filter (db.matches query)

/-- What the filters and the collection have to be like: queries are made and limits converted;
unless a single id matches, the found documents that remain have times that can be converted, and to
numbers, if a limit below one does not leave out all of them; and with a limit there is one filter,
or no more ids match than the limit allows. -/
structure Answerable (finder : Finder) (db : Database) (docs : List Json)
    (filters : List FilterObj) (hasLimit : Bool) (queries : List FieldQuery)
    (limit : Option Extended) : Prop where
  built : buildQueries finder.toEngine (objects filters) = .ok queries
  converted : mathMax finder.toEngine ((objects filters).map limitValue) = .ok limit
  times : differentIds (matching db docs queries) ≤ 1 ∨
    ∀ doc, Remains (queries.flatMap finder.find) doc →
      ∃ time, timeOf finder.toEngine doc = .ok time ∧
        (time ≠ none ∨ hasLimit = true ∧ LeavesNothing limit)
  limits : hasLimit = true → ∀ m, IsGreatest (positiveLimits filters) m →
    filters.length = 1 ∨ (differentIds (matching db docs queries) : Rat) ≤ m

/-- Ids are counted in any order. -/
theorem different_ids_perm {docs others : List Json} (h : docs.Perm others) :
    differentIds docs = differentIds others := by
  unfold differentIds
  rw [h.countP_eq, List.toFinset_eq_of_perm _ _ (h.filterMap keyOf)]

section

variable {finder : Finder} {db : Database} {docs : List Json} {queries : List FieldQuery}

/-- What is sorted is one document for each id that matches. -/
theorem length_query_result
    (hfind : ∀ query, (finder.find query).Perm (docs.filter (db.matches query))) :
    (queryResult finder queries).length = differentIds (matching db docs queries) := by
  rw [queryResult, (length_foldl_set_result _).1]
  exact different_ids_perm (List.Perm.flatMap_left queries fun query _ => hfind query)

/-- Every one of them is a document of the collection that matches. -/
theorem mem_query_result
    (hfind : ∀ query, (finder.find query).Perm (docs.filter (db.matches query))) {doc : Json}
    (h : doc ∈ queryResult finder queries) :
    doc ∈ docs ∧ ∃ query ∈ queries, db.matches query doc = true := by
  have hremains := ((foldl_set_result (queries.flatMap finder.find)).2 doc).mp h
  obtain ⟨query, hquery, hdoc⟩ := List.mem_flatMap.mp hremains.mem
  obtain ⟨hdocs, hmatches⟩ := List.mem_filter.mp ((hfind query).mem_iff.mp hdoc)
  exact ⟨hdocs, query, hquery, hmatches⟩

/-- Where something of an answer is left and something else was found, every document has a
time. -/
theorem timed_of_no_older {engine : Engine} {answer rest : List Json} (hanswer : answer ≠ [])
    (hmany : 1 < (answer ++ rest).length) (hordered : answer.Pairwise (NoOlder engine))
    (hnewest : ∀ a ∈ answer, ∀ b ∈ rest, NoOlder engine a b) :
    ∀ doc ∈ answer ++ rest, ∃ q, timeOf engine doc = .ok (some q) := by
  obtain ⟨first, answer, rfl⟩ := List.exists_cons_of_ne_nil hanswer
  -- the first document is compared with all others
  have hfirst : ∀ other ∈ answer ++ rest, NoOlder engine first other := by
    intro other hother
    rcases List.mem_append.mp hother with hother | hother
    · exact List.rel_of_pairwise_cons hordered hother
    · exact hnewest first List.mem_cons_self other hother
  rw [List.cons_append, List.forall_mem_cons]
  refine ⟨?_, fun other hother => ?_⟩
  · have hne : answer ++ rest ≠ [] := by
      rintro hnil
      rw [List.cons_append, hnil] at hmany
      exact absurd hmany (lt_irrefl 1)
    obtain ⟨p, -, hp, -⟩ := hfirst _ (List.head_mem hne)
    exact ⟨p, hp⟩
  · obtain ⟨-, q, -, hq, -⟩ := hfirst other hother
    exact ⟨q, hq⟩

variable {filters : List FilterObj} {hasLimit : Bool}

/-- An answer that is right was possible. -/
theorem answerable_of_answered
    (hfind : ∀ query, (finder.find query).Perm (docs.filter (db.matches query)))
    (hkeys : ∃ filter ∈ filters, filter.members ≠ [])
    (h : Answered finder db docs filters hasLimit) :
    ∃ queries limit, Answerable finder db docs filters hasLimit queries limit := by
  obtain ⟨queries, answer, hqueries, hrun, hanswers⟩ := h
  obtain ⟨queries', limit, sorted, hqueries', hlimit, hsorted, hanswer⟩ :=
    query_events_ok hkeys hrun
  obtain rfl := Except.ok.inj (hqueries.symm.trans hqueries')
  have hperm := sort_newest_perm hsorted
  have hlength : (queryResult finder queries).length =
      differentIds (matching db docs queries) := length_query_result hfind
  -- nothing but the cut comes between what was sorted and the answer
  obtain ⟨rest, hall, hnewest⟩ := hanswers.newest
  rw [query_events_of_ok hkeys hqueries hlimit hsorted] at hall
  obtain rfl : sorted = answer ++ rest := Except.ok.inj hall
  refine ⟨queries, limit, hqueries, hlimit, ?_, fun hcut m hm => ?_⟩
  · rcases Nat.lt_or_ge 1 (differentIds (matching db docs queries)) with hmany | hone
    · right
      intro doc hdoc
      have hmem : doc ∈ queryResult finder queries := ((foldl_set_result _).2 doc).mpr hdoc
      rw [← hlength, ← hperm.length_eq] at hmany
      by_cases hanswer' : answer = []
      · have htimes := (sort_newest_ok_iff.mp ⟨_, hsorted⟩).resolve_left
          (by rw [← hperm.length_eq]; omega)
        obtain ⟨time, htime⟩ := htimes doc hmem
        refine ⟨time, htime, .inr ?_⟩
        have hne : answer ++ rest ≠ [] := List.ne_nil_of_length_pos (by omega)
        cases hasLimit with
        | false => exact absurd (hanswer.symm.trans hanswer') hne
        | true => exact ⟨rfl, (slice_limit_eq_nil_iff hne).mp (hanswer.symm.trans hanswer')⟩
      · obtain ⟨q, hq⟩ := timed_of_no_older hanswer' hmany hanswers.ordered hnewest doc
          (hperm.mem_iff.mpr hmem)
        exact ⟨some q, hq, .inl (Option.some_ne_none q)⟩
    · exact .inl hone
  · by_cases hone : filters.length = 1
    · exact .inl hone
    · right
      have hpos : 0 < filters.length := by
        obtain ⟨filter, hfilter, -⟩ := hkeys
        exact List.length_pos_of_mem hfilter
      obtain rfl := math_max_many hlimit (by simp [objects]; omega)
      have hlen := hanswers.limited hcut m hm
      rw [hanswer, if_pos hcut] at hlen
      rwa [slice_limit_none, hperm.length_eq, hlength] at hlen

/-- Documents with times are sorted by them, and otherwise nothing of them is left. -/
theorem Answerable.ordered_or_nothing
    (hfind : ∀ query, (finder.find query).Perm (docs.filter (db.matches query)))
    {limit : Option Extended} {sorted : List Json}
    (h : Answerable finder db docs filters hasLimit queries limit)
    (hsorted : sortNewest finder (queryResult finder queries) = .ok sorted) :
    sorted.Pairwise (NoOlder finder.toEngine) ∨
      (if hasLimit then sliceLimit limit sorted else sorted) = [] := by
  have hlength : (queryResult finder queries).length =
      differentIds (matching db docs queries) := length_query_result hfind
  have hperm := sort_newest_perm hsorted
  rcases Nat.lt_or_ge 1 (queryResult finder queries).length with hmany | hone
  · have htimes := h.times.resolve_left (by rw [← hlength]; omega)
    by_cases hnothing : hasLimit = true ∧ LeavesNothing limit
    · right
      rw [if_pos hnothing.1]
      refine (slice_limit_eq_nil_iff (List.ne_nil_of_length_pos ?_)).mpr hnothing.2
      rw [hperm.length_eq]
      omega
    · refine .inl (sort_newest_ordered hsorted hmany fun doc hdoc => ?_)
      have hremains := ((foldl_set_result (queries.flatMap finder.find)).2 doc).mp hdoc
      obtain ⟨time, htime, hsome⟩ := htimes doc hremains
      obtain ⟨q, rfl⟩ := Option.ne_none_iff_exists'.mp (hsome.resolve_right hnothing)
      exact ⟨q, htime⟩
  · left
    rw [← hperm.length_eq] at hone
    match sorted, hone with
    | [], _ => exact List.Pairwise.nil
    | [doc], _ => exact List.pairwise_singleton _ _

/-- It is given. -/
theorem answered_of_answerable
    (hfind : ∀ query, (finder.find query).Perm (docs.filter (db.matches query)))
    (hkeys : ∃ filter ∈ filters, filter.members ≠ []) {limit : Option Extended}
    (h : Answerable finder db docs filters hasLimit queries limit) :
    Answered finder db docs filters hasLimit := by
  have hlength : (queryResult finder queries).length =
      differentIds (matching db docs queries) := length_query_result hfind
  obtain ⟨hdiffer, hremains⟩ := foldl_set_result (queries.flatMap finder.find)
  obtain ⟨sorted, hsorted⟩ : ∃ sorted, sortNewest finder (queryResult finder queries) =
      .ok sorted := by
    refine sort_newest_ok_iff.mpr (h.times.imp (fun hone => hlength.le.trans hone) ?_)
    exact fun htimes doc hdoc => (htimes doc ((hremains doc).mp hdoc)).imp fun _ h => h.1
  have hperm := sort_newest_perm hsorted
  have hrun := query_events_of_ok hkeys h.built h.converted hsorted
  have hordered := h.ordered_or_nothing hfind hsorted
  -- whether it is cut or not, the answer is a prefix of all there is
  have hinit : (if hasLimit then sliceLimit limit sorted else sorted) <+: sorted := by
    split
    · exact slice_limit_prefix limit _
    · exact List.prefix_refl _
  obtain ⟨rest, hrest⟩ := hinit
  refine ⟨queries, _, h.built, hrun hasLimit, ?_, ?_, fun doc hdoc => ?_, fun htrue m hm => ?_,
    rest, (hrun false).trans (congrArg Except.ok hrest.symm), ?_⟩
  · exact ((hperm.pairwise_iff fun {a b} => Differ.symm).mpr hdiffer).sublist
      (List.IsPrefix.sublist ⟨rest, hrest⟩)
  · rcases hordered with hsorted | hnil
    · exact hsorted.sublist (List.IsPrefix.sublist ⟨rest, hrest⟩)
    · exact hnil ▸ List.Pairwise.nil
  · exact mem_query_result hfind (hperm.mem_iff.mp (hrest ▸ List.mem_append_left rest hdoc))
  · rcases h.limits htrue m hm with hone | hle
    · obtain rfl := Except.ok.inj
        (h.converted.symm.trans (math_max_single finder.toEngine hm.1 hone))
      rw [if_pos htrue]
      exact length_slice_limit hm.1.1 _
    · refine le_trans ?_ hle
      rw [← hlength, ← hperm.length_eq]
      exact_mod_cast List.IsPrefix.length_le ⟨rest, hrest⟩
  · rcases hordered with hsorted | hnil
    · rw [← hrest] at hsorted
      exact (List.pairwise_append.mp hsorted).2.2
    · rw [hnil]
      exact fun a ha => absurd ha List.not_mem_nil

end

/-- A database that compares with `$in`, and by equality otherwise. -/
def sampleDatabase : Database where
  satisfies condition field :=
    match condition with
    | some (.obj [(operator, .arr values)]) =>
        operator = ascii "$in" && values.any fun value => strictEqual (some value) field
    | condition => strictEqual condition field

/-- A small document. -/
def smallDoc (id : String) (time : Int) : Json :=
  .obj [(ascii "id", .str (ascii id)), (ascii "kind", .int 1), (ascii "created_at", .int time)]

/-- Two notes. -/
def smallDocs : List Json :=
  [smallDoc "a" 1688794190, smallDoc "b" 1688794191]

/-- A collection with these documents. -/
def sampleFinder : Finder where
  toEngine := samplePlatform.toEngine
  find query := smallDocs.filter (sampleDatabase.matches query)
  shuffle docs := docs
  shuffle_perm docs := List.Perm.refl docs

/-- The newest note. -/
def oneNote : FilterObj where
  members := [(ascii "kinds", .arr [.int 1]), (ascii "limit", .int 1)]
  nodup := by decide

/-- Its query. -/
def kindQuery : FieldQuery :=
  [(ascii "kind", some (operator "$in" (.arr [.int 1])))]

/-- The sample database finds what matches. -/
theorem find_sample (query : FieldQuery) :
    (sampleFinder.find query).Perm (smallDocs.filter (sampleDatabase.matches query)) :=
  List.Perm.refl _

/-- The times of the notes are numbers. -/
theorem time_of_small (id : String) (time : Int) :
    timeOf sampleFinder.toEngine (smallDoc id time) = .ok (some ((time : Rat) : WithTop Rat)) :=
  to_number_of_number sampleFinder.toEngine rfl

end Gnostr.Swarm
