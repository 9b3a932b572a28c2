import Gnostr.Relay.Database

/-!
# Requests on the wire

`to_json` of `filter_t` and `make_request` of `src/nostr.cc`. The lists of strings are sent when
they are not empty, the kinds and the limit always, the two times only when the caller of
`to_json` asks for them. `make_request` does not ask, so the relay answers for its own times:
`parse_make_request` says what a request becomes on the other side.
-/

namespace Gnostr.Relay

open Wire

/-- A list of `int`. -/
def kindsJson (kinds : List Int32) : Json :=
  .arr (kinds.map fun kind => .int kind.toInt)

/-- An assignment made under a condition. -/
def assignIf (c : Bool) (key : String) (v : Json) : List (String × Json) :=
  if c then [(key, v)] else []

/-- The assignments of `to_json` of `filter_t`, in order. -/
def filterMembers (s : FilterT) (withTime : Bool) : List (String × Json) :=
  assignIf (s.ids.length ≠ 0) "ids" (stringsJson s.ids) ++
  assignIf (s.authors.length ≠ 0) "authors" (stringsJson s.authors) ++
  assignIf true "kinds" (kindsJson s.kinds) ++
  assignIf (s.e.length ≠ 0) "#e" (stringsJson s.e) ++
  assignIf (s.p.length ≠ 0) "#p" (stringsJson s.p) ++
  assignIf withTime "since" (.int s.since.toInt) ++
  assignIf withTime "until" (.int s.until_.toInt) ++
  assignIf true "limit" (.int s.limit.toNat)

/-- `to_json` of `filter_t`. -/
def filterToJson (s : FilterT) (withTime : Bool) : Json :=
  assigned (filterMembers s withTime)

/-- `make_request`: the text is empty when dumping throws. `to_json` is called with its default
argument, without the times. -/
def makeRequest (lib : JsonLib) (subscriptionId : Bytes) (filter : FilterT) : Bytes :=
  let request := .arr [.str (ascii "REQ"), .str subscriptionId, filterToJson filter false]
  match lib.dump none request with
  | some json => json
  | none => []

/-! ## Objects made by assignments -/

/-- The value a name was last assigned, or the one it had before. -/
def lastAssigned (key : Bytes) (found : Option Json) (ms : List (String × Json)) : Option Json :=
  ms.foldl (fun found m => if ascii m.1 = key then some m.2 else found) found

/-- A member is what was assigned to it last. -/
theorem member_assigned (ms : List (String × Json)) (key : Bytes) :
    (assigned ms).member key = lastAssigned key none ms := by
  have hfold : ∀ done : List (Bytes × Json),
      (Json.obj (ms.foldl (fun done m => Json.insert (ascii m.1) m.2 done) done)).member key =
        lastAssigned key ((Json.obj done).member key) ms := by
    induction ms with
    | nil => exact fun done => rfl
    | cons m ms ih =>
        intro done
        rw [List.foldl_cons, ih, Json.member_insert]
        rfl
  exact hfold []

/-- What was assigned can be stored when all values can. -/
theorem is_storable_assigned {ms : List (String × Json)} (h : ∀ m ∈ ms, m.2.isStorable = true) :
    (assigned ms).isStorable = true := by
  have hfold : ∀ done : List (Bytes × Json), (Json.obj done).isStorable = true →
      (Json.obj (ms.foldl (fun done m => Json.insert (ascii m.1) m.2 done)
        done)).isStorable = true := by
    induction ms with
    | nil => exact fun done hdone => hdone
    | cons m ms ih =>
        intro done hdone
        have hm := h m List.mem_cons_self
        exact ih (fun n hn => h n (List.mem_cons_of_mem _ hn)) _ (Json.is_storable_insert hdone hm)
  exact hfold [] (by simp)

/-- And it is UTF-8 when all names and values are. -/
theorem is_utf8_assigned {ms : List (String × Json)}
    (h : ∀ m ∈ ms, Wire.Utf8 (ascii m.1) ∧ m.2.isUtf8 = true) : (assigned ms).isUtf8 = true := by
  have hfold : ∀ done : List (Bytes × Json), (Json.obj done).isUtf8 = true →
      (Json.obj (ms.foldl (fun done m => Json.insert (ascii m.1) m.2 done)
        done)).isUtf8 = true := by
    induction ms with
    | nil => exact fun done hdone => hdone
    | cons m ms ih =>
        intro done hdone
        obtain ⟨hkey, hm⟩ := h m List.mem_cons_self
        exact ih (fun n hn => h n (List.mem_cons_of_mem _ hn)) _
          (Json.is_utf8_insert hdone hkey hm)
  exact hfold [] (by simp)

/-- What was assigned under a condition, and that the condition held. -/
theorem of_mem_assign_if {c : Bool} {key : String} {v : Json} {m : String × Json}
    (h : m ∈ assignIf c key v) : c = true ∧ m = (key, v) := by
  cases c with
  | false => simp [assignIf] at h
  | true => simpa [assignIf] using h

/-- The last assignment of two lists, one behind the other. -/
@[simp] theorem last_assigned_append (key : Bytes) (found : Option Json)
    (ms ns : List (String × Json)) :
    lastAssigned key found (ms ++ ns) = lastAssigned key (lastAssigned key found ms) ns :=
  List.foldl_append

/-- An assignment under a condition. -/
@[simp] theorem last_assigned_if (key : Bytes) (found : Option Json) (c : Bool) (name : String)
    (v : Json) :
    lastAssigned key found (assignIf c name v) =
      if ascii name = key then (if c then some v else found) else found := by
  cases c <;> simp [lastAssigned, assignIf]

/-! ## Filters survive the conversion -/

/-- Every string of the filter is well-formed UTF-8. -/
structure FilterT.Utf8 (f : FilterT) : Prop where
  ids : ∀ t ∈ f.ids, Wire.Utf8 t
  authors : ∀ t ∈ f.authors, Wire.Utf8 t
  e : ∀ t ∈ f.e, Wire.Utf8 t
  p : ∀ t ∈ f.p, Wire.Utf8 t

/-- The members of a filter object, by name. -/
structure Holds (f : FilterT) (withTime : Bool) (j : Json) : Prop where
  ids : j.member (ascii "ids") = if f.ids.length ≠ 0 then some (stringsJson f.ids) else none
  authors : j.member (ascii "authors") =
    if f.authors.length ≠ 0 then some (stringsJson f.authors) else none
  kinds : j.member (ascii "kinds") = some (kindsJson f.kinds)
  e : j.member (ascii "#e") = if f.e.length ≠ 0 then some (stringsJson f.e) else none
  p : j.member (ascii "#p") = if f.p.length ≠ 0 then some (stringsJson f.p) else none
  since : j.member (ascii "since") = if withTime then some (.int f.since.toInt) else none
  until_ : j.member (ascii "until") = if withTime then some (.int f.until_.toInt) else none
  limit : j.member (ascii "limit") = some (.int f.limit.toNat)

/-- The object of a filter has its fields. -/
theorem holds_filter_to_json (f : FilterT) (withTime : Bool) :
    Holds f withTime (filterToJson f withTime) := by
  constructor <;> simp +decide [filterToJson, member_assigned, filterMembers]

/-- A field that is there is read. -/
theorem optional_of_member {α β : Type} {key : String} {get : Json → Option β} {set : α → β → α}
    {j v : Json} {s : α} {x : β} (hmember : j.member (ascii key) = some v) (hget : get v = some x) :
    optional key get set j s = some (set s x) := by
  simp [optional, hmember, hget]

/-- One that is not is left as it is. -/
theorem optional_of_absent {α β : Type} {key : String} {get : Json → Option β} {set : α → β → α}
    {j : Json} {s : α} (hmember : j.member (ascii key) = none) :
    optional key get set j s = some s := by
  simp [optional, hmember]

/-- A list that is left out when it is empty is assigned all the same, where the empty list is
what the field holds. -/
theorem optional_strings {α : Type} {key : String} {set : α → List Bytes → α} {j : Json} {s : α}
    {ts : List Bytes}
    (hmember : j.member (ascii key) = if ts.length ≠ 0 then some (stringsJson ts) else none)
    (hkeep : set s [] = s) : optional key getStrings set j s = some (set s ts) := by
  cases ts with
  | nil => rw [optional_of_absent hmember, hkeep]
  | cons t ts => exact optional_of_member hmember (get_strings_json _)

/-- Kinds are read back from their array. -/
theorem get_kinds_json (lib : JsonLib) (kinds : List Int32) :
    (kindsJson kinds).toList (getInt lib) = some kinds := by
  simp only [kindsJson, Json.toList]
  induction kinds with
  | nil => rfl
  | cons kind kinds ih => simp [List.mapM_cons, getInt, Json.toArithmetic, Json.toNumber, ih]

/-- A time is read back. -/
theorem get_time_json (lib : JsonLib) (t : Int64) : getTime lib (.int t.toInt) = some t := by
  simp [getTime, Json.toNumber]

/-- So is a limit. -/
theorem get_size_json (lib : JsonLib) (n : UInt64) : getSize lib (.int n.toNat) = some n := by
  have hlt : n.toNat < 2 ^ 64 := n.toNat_lt
  have hmod : ((n.toNat : Int) % 2 ^ 64).toNat = n.toNat := by omega
  simp only [getSize, Json.toNumber, Option.map_some, UInt64.ofInt, hmod, UInt64.ofNat_toNat]

/-- A field that is read, and those behind it. -/
theorem assign_all_step {α : Type} {j : Json} {g : Assign α} {gs : List (Assign α)} {s s' : α}
    (h : g j s = some s') : assignAll j (g :: gs) s = assignAll j gs s' := by
  simp [assignAll, h]

/-- Converting a filter to JSON and back gives the filter, as far as it was sent. -/
theorem filter_from_json_to_json (lib : JsonLib) (f : FilterT) (withTime : Bool) (now : Int64) :
    filterFromJson lib (filterToJson f withTime) (FilterT.new now) =
      (true, if withTime then f else { f with since := 0, until_ := now }) := by
  obtain ⟨hids, hauthors, hkinds, he, hp, hsince, huntil, hlimit⟩ :=
    holds_filter_to_json f withTime
  rw [filterFromJson, filterAssigns, assign_all_step (optional_strings hids rfl),
    assign_all_step (optional_strings hauthors rfl),
    assign_all_step (optional_of_member hkinds (get_kinds_json lib _)),
    assign_all_step (optional_strings he rfl), assign_all_step (optional_strings hp rfl)]
  cases withTime with
  | false =>
      rw [assign_all_step (optional_of_absent hsince), assign_all_step (optional_of_absent huntil),
        assign_all_step (optional_of_member hlimit (get_size_json lib _))]
      rfl
  | true =>
      rw [assign_all_step (optional_of_member hsince (get_time_json lib _)),
        assign_all_step (optional_of_member huntil (get_time_json lib _)),
        assign_all_step (optional_of_member hlimit (get_size_json lib _))]
      rfl

/-- A filter can be stored. -/
theorem is_storable_filter (f : FilterT) (withTime : Bool) :
    (filterToJson f withTime).isStorable = true := by
  have hkinds : (kindsJson f.kinds).isStorable = true := by
    have hkind : ∀ kind : Int32, Json.isWord kind.toInt = true := fun kind => by
      have hle := kind.le_toInt
      have hlt := kind.toInt_lt
      simp only [Json.isWord, Bool.and_eq_true, decide_eq_true_eq]
      omega
    simp [kindsJson, hkind]
  have htime : ∀ t : Int64, Json.isWord t.toInt = true := fun t => by
    have hle := t.le_toInt
    have hlt := t.toInt_lt
    simp only [Json.isWord, Bool.and_eq_true, decide_eq_true_eq]
    omega
  have hlimit : Json.isWord f.limit.toNat = true := by
    have hlt := f.limit.toNat_lt
    simp only [Json.isWord, Bool.and_eq_true, decide_eq_true_eq]
    omega
  refine is_storable_assigned fun m hm => ?_
  simp only [filterMembers, List.mem_append, or_assoc] at hm
  rcases hm with h | h | h | h | h | h | h | h <;> obtain ⟨-, rfl⟩ := of_mem_assign_if h <;>
    simp [is_storable_strings, hkinds, htime, hlimit]

/-- Its object is UTF-8 when its texts are. -/
theorem FilterT.Utf8.to_json {f : FilterT} (h : f.Utf8) (withTime : Bool) :
    (filterToJson f withTime).isUtf8 = true := by
  have hstrings : ∀ ts : List Bytes, (∀ t ∈ ts, Wire.Utf8 t) → (stringsJson ts).isUtf8 = true :=
    fun ts hts => by simpa [stringsJson] using hts
  have hkinds : (kindsJson f.kinds).isUtf8 = true := by simp [kindsJson]
  refine is_utf8_assigned fun m hm => ?_
  simp only [filterMembers, List.mem_append, or_assoc] at hm
  rcases hm with hm | hm | hm | hm | hm | hm | hm | hm <;> obtain ⟨-, rfl⟩ := of_mem_assign_if hm
  · exact ⟨show Wire.Utf8 (ascii "ids") by decide, hstrings _ h.ids⟩
  · exact ⟨show Wire.Utf8 (ascii "authors") by decide, hstrings _ h.authors⟩
  · exact ⟨show Wire.Utf8 (ascii "kinds") by decide, hkinds⟩
  · exact ⟨show Wire.Utf8 (ascii "#e") by decide, hstrings _ h.e⟩
  · exact ⟨show Wire.Utf8 (ascii "#p") by decide, hstrings _ h.p⟩
  · exact ⟨show Wire.Utf8 (ascii "since") by decide, Json.is_utf8_int _⟩
  · exact ⟨show Wire.Utf8 (ascii "until") by decide, Json.is_utf8_int _⟩
  · exact ⟨show Wire.Utf8 (ascii "limit") by decide, Json.is_utf8_int _⟩

/-! ## Requests survive the wire -/

/-- The message that arrives is the one that was made. -/
theorem read_make_request {lib : JsonLib} (hlib : lib.Lawful) {subscriptionId : Bytes}
    (hid : Wire.Utf8 subscriptionId) {f : FilterT} (hf : f.Utf8) :
    readMessage lib (makeRequest lib subscriptionId f) =
      some (ascii "REQ",
        .arr [.str (ascii "REQ"), .str subscriptionId, filterToJson f false]) := by
  have hname : Wire.Utf8 (ascii "REQ") := by decide
  obtain ⟨json, hdump⟩ := hlib.dump_utf8 none
    (v := .arr [.str (ascii "REQ"), .str subscriptionId, filterToJson f false])
    (by simp [hname, hid, hf.to_json])
  have hparse := hlib.round_trip (by simp [is_storable_filter]) hdump
  simpa [makeRequest, hdump] using read_message_eq hparse

/-- A request arrives with its id and with every attribute that was sent. The two times are not
sent: the filter has the times of the one it is read into. -/
theorem parse_make_request (lib : JsonLib) (hlib : lib.Lawful) (subscriptionId : Bytes)
    (hid : Wire.Utf8 subscriptionId) (f : FilterT) (hf : f.Utf8) (oldId : Bytes) (now : Int64) :
    parseRequest lib (makeRequest lib subscriptionId f) oldId (FilterT.new now) =
      (0, subscriptionId, { f with since := 0, until_ := now }) := by
  have hread := read_make_request hlib hid hf
  have hconvert := filter_from_json_to_json lib f false now
  simp [parseRequest, hread, Json.element, Json.toStr, hconvert, status]

/-- A filter that asks for the notes of one author since a given time. -/
def sinceFilter : FilterT :=
  { FilterT.new 1688794190 with
    authors := [ascii "a"], kinds := [1], since := 1643873040, limit := 100 }

/-- The sample filter is UTF-8. -/
theorem utf8_since_filter : sinceFilter.Utf8 where
  ids := by simp [sinceFilter, FilterT.new]
  authors := by
    have hauthor : Wire.Utf8 (ascii "a") := by decide
    simpa [sinceFilter] using hauthor
  e := by simp [sinceFilter, FilterT.new]
  p := by simp [sinceFilter, FilterT.new]

/-- The authors, kinds and limit arrive, the time does not. -/
theorem parse_make_request_since :
    (parseRequest JsonLib.reference (makeRequest JsonLib.reference (ascii "sub") sinceFilter) []
      (FilterT.new 1688794200)) =
      (0, ascii "sub", { sinceFilter with since := 0, until_ := 1688794200 }) :=
  parse_make_request JsonLib.reference JsonLib.reference_lawful (ascii "sub") (by decide)
    sinceFilter utf8_since_filter [] 1688794200

/-- The filter that arrives is not the one that was sent. -/
theorem make_request_drops_since :
    ¬ ∀ (lib : JsonLib), lib.Lawful → ∀ (subscriptionId oldId : Bytes) (f : FilterT) (now : Int64),
      Wire.Utf8 subscriptionId → f.Utf8 →
      parseRequest lib (makeRequest lib subscriptionId f) oldId (FilterT.new now) =
        (0, subscriptionId, f) := by
  intro h
  have hid : Wire.Utf8 (ascii "sub") := by decide
  have harrived := h _ JsonLib.reference_lawful (ascii "sub") [] sinceFilter 1688794200 hid
    utf8_since_filter
  have hread := read_make_request JsonLib.reference_lawful hid utf8_since_filter
  have hconvert := filter_from_json_to_json JsonLib.reference sinceFilter false 1688794200
  have harrives : parseRequest JsonLib.reference (makeRequest JsonLib.reference (ascii "sub")
      sinceFilter) [] (FilterT.new 1688794200) =
        (0, ascii "sub", { sinceFilter with since := 0, until_ := 1688794200 }) := by
    simp [parseRequest, hread, Json.element, Json.toStr, hconvert, status]
  rw [harrives] at harrived
  have hsince : (0 : Int64) = 1643873040 := congrArg (fun r => r.2.2.since) harrived
  exact absurd hsince (by decide)

end Gnostr.Relay
