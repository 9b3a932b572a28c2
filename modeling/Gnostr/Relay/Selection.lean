import Gnostr.Relay.Database
import Gnostr.Wire.Shares

/-!
# Selecting the events asked for

What the filters of a `REQ` ask for, by the attributes that the comment of `filter_t` in
`src/nostr.cc` lists, against what `parse_request` and `database::request` select: the events whose
key is literally one of the authors of the first filter. `request_selects_iff` counts when these
are the events asked for.
-/

namespace Gnostr.Relay

open Wire

/-! ## What the attributes of a filter ask for -/

/-- The attributes present in a filter object. -/
structure Attributes where
  ids : Option (List Bytes)
  authors : Option (List Bytes)
  kinds : Option (List Int32)
  e : Option (List Bytes)
  p : Option (List Bytes)
  since : Option Int64
  until_ : Option Int64
  limit : Option UInt64

/-- The attributes of a filter object. -/
def attributesOf (lib : JsonLib) (f : Json) : Attributes where
  ids := (f.member (ascii "ids")).bind getStrings
  authors := (f.member (ascii "authors")).bind getStrings
  kinds := (f.member (ascii "kinds")).bind (Json.toList (getInt lib))
  e := (f.member (ascii "#e")).bind getStrings
  p := (f.member (ascii "#p")).bind getStrings
  since := (f.member (ascii "since")).bind (getTime lib)
  until_ := (f.member (ascii "until")).bind (getTime lib)
  limit := (f.member (ascii "limit")).bind (getSize lib)

/-- Whether a tag of the event refers to one of the values under a name. -/
def refersTo (ev : EventT) (name : String) (values : List Bytes) : Bool :=
  ev.tags.any fun tag => tag.head? = some (ascii name) && values.any fun v => tag[1]? = some v

/-- An event passes a filter that has every attribute present satisfied: ids and authors by
prefix, kinds by membership, `#e` and `#p` by the tags, the time between `since` and `until`. -/
def Attributes.passes (a : Attributes) (ev : EventT) : Bool :=
  a.ids.all (fun ids => ids.any fun id => id.isPrefixOf ev.id) &&
    a.authors.all (fun authors => authors.any fun author => author.isPrefixOf ev.pubkey) &&
    a.kinds.all (fun kinds => kinds.contains ev.kind) &&
    a.e.all (refersTo ev "e") && a.p.all (refersTo ev "p") &&
    a.since.all (fun since => since < ev.createdAt) &&
    a.until_.all fun until_ => ev.createdAt < until_

/-- Where the events that pass a filter stand in a store. -/
def Attributes.matching (a : Attributes) (stored : List EventT) : Finset (Fin stored.length) :=
  Finset.univ.filter fun i => a.passes (stored.get i) = true

/-- How many events a filter contributes: all that pass it, up to its limit. -/
def Attributes.share (a : Attributes) (stored : List EventT) : Nat :=
  match a.limit with
  | none => (a.matching stored).card
  | some n => min n.toNat (a.matching stored).card

/-- The events of a store at some of its places, in the order of the store. -/
def pick (stored : List EventT) (places : Finset (Fin stored.length)) : List EventT :=
  ((List.finRange stored.length).filter fun i => i ∈ places).map stored.get

/-- The events a `REQ` with these filters should select: every filter contributes its share, and
an event is selected once for all the filters that contribute it. -/
def Selected (filters : List Attributes) (stored selected : List EventT) : Prop :=
  ∃ taken : Fin filters.length → Finset (Fin stored.length),
    Shares (fun k => (filters.get k).matching stored) (fun k => (filters.get k).share stored)
      taken ∧
      selected = pick stored (Finset.univ.biUnion taken)

/-! ## When the authors are enough -/

/-- Where the events stand whose key is literally one of the authors. -/
def listed (authors : List Bytes) (stored : List EventT) : Finset (Fin stored.length) :=
  Finset.univ.filter fun i => (stored.get i).pubkey ∈ authors

/-- The listed events are what the filters ask for: every filter finds its share among them, and
however many of them are taken, the filters that some of these pass have shares for as many. -/
structure AuthorsDecide (authors : List Bytes) (filters : List Attributes)
    (stored : List EventT) : Prop where
  complete : ∀ k : Fin filters.length,
    (filters.get k).share stored ≤ ((filters.get k).matching stored ∩ listed authors stored).card
  sound : ∀ s ⊆ listed authors stored,
    s.card ≤ ∑ k ∈ interested (fun k => (filters.get k).matching stored) s,
      (filters.get k).share stored

/-- As many events are picked as there are places. -/
theorem length_pick (stored : List EventT) (places : Finset (Fin stored.length)) :
    (pick stored places).length = places.card := by
  have hnodup : ((List.finRange stored.length).filter fun i => i ∈ places).Nodup :=
    (List.nodup_finRange _).filter _
  have hplaces : ((List.finRange stored.length).filter fun i => i ∈ places).toFinset = places := by
    ext i
    simp
  rw [pick, List.length_map, ← List.toFinset_card_of_nodup hnodup, hplaces]

/-- Picking the places at which a predicate holds is filtering. -/
theorem pick_filter (stored : List EventT) (p : EventT → Bool) :
    pick stored (Finset.univ.filter fun i => p (stored.get i) = true) = stored.filter p := by
  have hall : stored.filter p = ((List.finRange stored.length).map stored.get).filter p := by
    rw [List.map_get_finRange]
  rw [hall, List.filter_map, pick]
  congr 1
  exact List.filter_congr fun i _ => by simp

/-- A filtered store is picked from one set of places only. -/
theorem pick_eq_filter_iff {stored : List EventT} {places : Finset (Fin stored.length)}
    {p : EventT → Bool} :
    stored.filter p = pick stored places ↔
      places = Finset.univ.filter fun i => p (stored.get i) = true := by
  constructor
  · intro h
    refine Finset.eq_of_subset_of_card_le (fun i hi => ?_) ?_
    · have hmem : stored.get i ∈ pick stored places :=
        List.mem_map.mpr ⟨i, by simpa using hi, rfl⟩
      rw [← h, List.mem_filter] at hmem
      exact Finset.mem_filter.mpr ⟨Finset.mem_univ i, hmem.2⟩
    · rw [← length_pick stored places, ← h, ← pick_filter stored p, length_pick]
  · rintro rfl
    exact (pick_filter stored p).symm

/-- The events listed under the authors are those the filters ask for exactly when the authors
decide. -/
theorem selected_by_authors_iff (authors : List Bytes) (filters : List Attributes)
    (stored : List EventT) :
    Selected filters stored (stored.filter fun ev => ev.pubkey ∈ authors) ↔
      AuthorsDecide authors filters stored := by
  have hlisted : ∀ places, (stored.filter fun ev => ev.pubkey ∈ authors) = pick stored places ↔
      places = listed authors stored := fun places => by
    rw [pick_eq_filter_iff, listed]
    simp only [decide_eq_true_eq]
  have hshares := exists_shares_iff (fun k => (filters.get k).matching stored)
    (fun k => (filters.get k).share stored) (listed authors stored)
  simp only [Selected, hlisted, hshares]
  exact ⟨fun h => ⟨h.1, h.2⟩, fun h => ⟨h.complete, h.sound⟩⟩

/-- A stored event matches when it passes. -/
theorem mem_matching {a : Attributes} {stored : List EventT} {i : Fin stored.length} :
    i ∈ a.matching stored ↔ a.passes (stored.get i) = true := by
  simp [Attributes.matching]

/-- It is listed when its author is. -/
theorem mem_listed {authors : List Bytes} {stored : List EventT} {i : Fin stored.length} :
    i ∈ listed authors stored ↔ (stored.get i).pubkey ∈ authors := by
  simp [listed]

/-- A filter without a limit contributes all that pass it. -/
theorem Attributes.share_unlimited {a : Attributes} (h : a.limit = none) (stored : List EventT) :
    a.share stored = (a.matching stored).card := by
  rw [share, h]

/-- Without limits the authors decide when a stored event is listed exactly if it passes some
filter. -/
theorem authors_decide_iff {filters : List Attributes} (h : ∀ a ∈ filters, a.limit = none)
    (authors : List Bytes) (stored : List EventT) :
    AuthorsDecide authors filters stored ↔
      ∀ ev ∈ stored, ev.pubkey ∈ authors ↔ ∃ a ∈ filters, a.passes ev = true := by
  have hshare : ∀ k : Fin filters.length,
      (filters.get k).share stored = ((filters.get k).matching stored).card := fun k =>
    Attributes.share_unlimited (h _ (List.get_mem filters k)) stored
  constructor
  · intro hdecide ev hev
    obtain ⟨i, rfl⟩ := List.get_of_mem hev
    constructor
    · intro hlisted
      have hone := hdecide.sound {i} (Finset.singleton_subset_iff.mpr (mem_listed.mpr hlisted))
      obtain ⟨k, hk, -⟩ : ∃ k ∈ interested (fun k => (filters.get k).matching stored) {i},
          (filters.get k).share stored ≠ 0 :=
        Finset.exists_ne_zero_of_sum_ne_zero (by rw [Finset.card_singleton] at hone; omega)
      obtain ⟨j, hj, hmatch⟩ := mem_interested.mp hk
      obtain rfl := Finset.mem_singleton.mp hj
      exact ⟨_, List.get_mem filters k, mem_matching.mp hmatch⟩
    · rintro ⟨a, ha, hpasses⟩
      obtain ⟨k, rfl⟩ := List.get_of_mem ha
      have hall := hdecide.complete k
      rw [hshare k] at hall
      have hsame := Finset.eq_of_subset_of_card_le Finset.inter_subset_left hall
      have hi : i ∈ (filters.get k).matching stored := mem_matching.mpr hpasses
      rw [← hsame] at hi
      exact mem_listed.mp (Finset.mem_of_mem_inter_right hi)
  · intro hiff
    constructor
    · intro k
      have hlisted : (filters.get k).matching stored ⊆ listed authors stored := fun i hi =>
        mem_listed.mpr ((hiff _ (List.get_mem stored i)).mpr
          ⟨_, List.get_mem filters k, mem_matching.mp hi⟩)
      rw [hshare k, Finset.inter_eq_left.mpr hlisted]
    · intro s hs
      have hcover : s ⊆ (interested (fun k => (filters.get k).matching stored) s).biUnion
          fun k => (filters.get k).matching stored := fun i hi => by
        obtain ⟨a, ha, hpasses⟩ :=
          (hiff _ (List.get_mem stored i)).mp (mem_listed.mp (hs hi))
        obtain ⟨k, rfl⟩ := List.get_of_mem ha
        have hmatch := mem_matching.mpr hpasses
        exact Finset.mem_biUnion.mpr ⟨k, mem_interested.mpr ⟨i, hi, hmatch⟩, hmatch⟩
      calc s.card ≤ _ := Finset.card_le_card hcover
        _ ≤ _ := Finset.card_biUnion_le
        _ = _ := Finset.sum_congr rfl fun k _ => (hshare k).symm

/-- Of a `REQ` message, only the `authors` of the first filter decide what is selected: the stored
events whose key is literally one of them, in the order of the store. -/
theorem request_by_first_authors (lib : JsonLib) (file : Option Bytes) (json id : Bytes)
    (f : Json) (filters : List Json) (oldId : Bytes) (now : Int64)
    (hjson : lib.parse json = some (.arr (.str (ascii "REQ") :: .str id :: f :: filters)))
    (hf : WellFormedFilter lib f) :
    ∃ filter, parseRequest lib json oldId (FilterT.new now) = (0, id, filter) ∧
      request lib filter file =
        (read lib file).filter fun ev => ev.pubkey ∈ authorsOf f := by
  obtain ⟨filter, -, hparse, hrequest⟩ := parse_well_formed_request hjson hf oldId now
  exact ⟨filter, hparse, hrequest file⟩

/-- What a `REQ` with well-formed filters selects are the events asked for exactly when the events
that the authors of the first filter list can be shared out among its filters. -/
theorem request_selects_iff (lib : JsonLib) (file : Option Bytes) (json id : Bytes) (f : Json)
    (filters : List Json) (oldId : Bytes) (now : Int64)
    (hjson : lib.parse json = some (.arr (.str (ascii "REQ") :: .str id :: f :: filters)))
    (hf : ∀ g ∈ f :: filters, WellFormedFilter lib g) :
    Selected ((f :: filters).map (attributesOf lib)) (read lib file)
        (request lib (parseRequest lib json oldId (FilterT.new now)).2.2 file) ↔
      AuthorsDecide (authorsOf f) ((f :: filters).map (attributesOf lib)) (read lib file) := by
  obtain ⟨filter, hparse, hrequest⟩ := request_by_first_authors lib file json id f filters oldId now
    hjson (hf f List.mem_cons_self)
  rw [hparse, hrequest]
  exact selected_by_authors_iff _ _ _

/-- A note is found by its author. -/
theorem request_selects_iff_note :
    Selected [attributesOf JsonLib.reference authorsFilter] [storedNote]
      (request JsonLib.reference (parseRequest JsonLib.reference (requestText authorsFilter) []
        (FilterT.new 1688794200)).2.2 (storedFile storedNote)) := by
  have hutf8 : authorsFilter.isUtf8 = true := by decide
  have hstore : authorsFilter.isStorable = true := by decide
  have hiff := request_selects_iff JsonLib.reference (storedFile storedNote)
    (requestText authorsFilter) (ascii "sub") authorsFilter [] [] 1688794200
    (parse_request_text hutf8 hstore)
    (List.forall_mem_singleton.mpr (well_formed_samples _).1)
  rw [read_stored_file utf8_stored_note] at hiff
  refine hiff.mpr ((authors_decide_iff (by decide) _ _).mpr fun ev hev => ?_)
  obtain rfl := List.mem_singleton.mp hev
  decide

/-- A stored note of kind 1 is not among the events selected by a filter for kind 1. -/
theorem request_misses_kind :
    ¬ ∀ (lib : JsonLib), lib.Lawful → ∀ (file : Option Bytes) (json id oldId : Bytes)
      (filters : List Json) (now : Int64),
      lib.parse json = some (.arr (.str (ascii "REQ") :: .str id :: filters)) → filters ≠ [] →
      (∀ f ∈ filters, WellFormedFilter lib f) →
      Selected (filters.map (attributesOf lib)) (read lib file)
        (request lib (parseRequest lib json oldId (FilterT.new now)).2.2 file) := by
  intro h
  have hutf8 : kindsFilter.isUtf8 = true := by decide
  have hstore : kindsFilter.isStorable = true := by decide
  have hparse := parse_request_text hutf8 hstore
  have hwell := (well_formed_samples JsonLib.reference).2
  have hselected := h _ JsonLib.reference_lawful (storedFile storedNote) (requestText kindsFilter)
    (ascii "sub") [] [kindsFilter] 1688794200 hparse (by simp) (by simpa using hwell)
  obtain ⟨filter, hfilter, hrequest⟩ := request_by_first_authors JsonLib.reference
    (storedFile storedNote) (requestText kindsFilter) (ascii "sub") kindsFilter [] [] 1688794200
    hparse hwell
  rw [hfilter, hrequest, selected_by_authors_iff, read_stored_file utf8_stored_note,
    authors_decide_iff (by decide)] at hselected
  have hlisted := (hselected storedNote List.mem_cons_self).mpr
    ⟨attributesOf JsonLib.reference kindsFilter, List.mem_cons_self, by decide⟩
  exact absurd hlisted (by decide)

end Gnostr.Relay
