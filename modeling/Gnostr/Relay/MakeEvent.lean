import Gnostr.Event.Keys
import Gnostr.Event.Unambiguous
import Gnostr.Relay.Server

/-!
# Publishing an event

`nostr::make_event` of `src/nostr.cc`. The event exists twice while it is made: the `event_t` that
is dumped, and a `nostr_event` that is hashed and signed. The second one takes over the time, the
kind and the content, the content as far as its first NUL, and has no tags.

`make_event_commits_iff` says for which events the published id is the hash of the published
event, `make_event_clean_iff` when a run either returns a text or leaves the event alone, and
`event_formats_round_trip` that what is published, sent by the relay or stored can be read back.
-/

namespace Gnostr.Relay

open Wire

/-- The `nostr_event` that `make_event` hashes and signs. -/
def hashedEvent (ev : EventT) (pubkey : Block 32) : NostrEvent where
  id := .zeros 32
  pubkey := pubkey
  sig := .zeros 64
  content := CStr.ofBytes ev.content
  createdAt := ev.createdAt.toUInt64
  kind := ev.kind
  explicitTags := none
  tags := []

/-- The `std::string` made from a buffer that `hex_encode` filled. The buffers of `make_event` are
large enough, and a negative result, which the source tests for, does not exist. -/
def hexString (buf : Bytes) (destsize : Nat) : Bytes :=
  (CStr.ofBytes ((hexEncode buf destsize).getD [])).bytes

/-- The key of `make_event`: decoded, or generated. Without a difficulty there is no loop. -/
def eventKey (c : Crypto) (random : Random) (seckey : Option Bytes) : Option Key :=
  match seckey with
  | some sec => decodeKey c (CStr.ofBytes sec)
  | none =>
      match generateKey c random none 0 with
      | .done key => key
      | .running => none

/-- `make_event`: the returned text and the event as it is left, or nothing when dumping throws. -/
def makeEvent (lib : JsonLib) (c : Crypto) (random : Random) (ev : EventT)
    (seckey : Option Bytes) : Option (Bytes × EventT) :=
  if initSecpContext c random = false then some ([], ev)
  else
    match eventKey c random seckey with
    | none => some ([], ev)
    | some key =>
        match generateEventId c.sha256 (hashedEvent ev key.pubkey) with
        -- without explicit tags there always is an outcome
        | none | some (false, _) => some ([], ev)
        | some (true, nev) =>
            match signEvent c random key nev with
            | none => some ([], ev)
            | some nev =>
                let ev := { ev with
                  pubkey := hexString nev.pubkey.1 65
                  id := hexString nev.id.1 65
                  sig := hexString nev.sig.1 129 }
                (lib.dump none (.arr [.str (ascii "EVENT"), toJson ev])).map fun json => (json, ev)

/-! ## What a published event carries -/

/-- The text is an `EVENT` message that carries the event. -/
def Carries (lib : JsonLib) (json : Bytes) (ev : EventT) : Prop :=
  lib.parse json = some (.arr [.str (ascii "EVENT"), toJson ev])

/-- The text an event is identified by: strings with the seven escapes, no white space. -/
def nip01Text (ev : EventT) : Bytes :=
  commitment ev.pubkey (signedDecimal ev.createdAt.toInt) (signedDecimal ev.kind.toInt)
    (bracketed (bracketed quoted 91 44 93) 91 44 93 ev.tags) (quoted ev.content)

/-- The signature was made over the id with the key whose public half is in the event. -/
def SignedBy (c : Crypto) (ev : EventT) : Prop :=
  ∃ (secret : Block 32) (key : Key) (id aux : Block 32) (sig : Block 64),
    createKey c secret = some key ∧ ev.pubkey = hexText key.pubkey.1 ∧ ev.id = hexText id.1 ∧
      c.schnorrsigSign32 id key.pair aux = some sig ∧ ev.sig = hexText sig.1

/-- Two texts do not collide under a hash. -/
def NoCollision (hash : Bytes → Block 32) (s t : Bytes) : Prop :=
  hash s = hash t → s = t

/-- A block is written in hexadecimal digits. -/
theorem hex_string_eq {n destsize : Nat} (buf : Block n) (h : 2 * n + 1 ≤ destsize) :
    hexString buf.1 destsize = hexText buf.1 := by
  have hnul : 0 ∉ hexText buf.1 := fun hmem => absurd (mem_hex_text hmem).1 (by decide)
  rw [hexString, hex_encode_eq (by rw [buf.2]; exact h), Option.getD_some,
    CStr.bytes_of_terminated hnul]

/-- The key of an event comes from a secret. -/
theorem event_key_some {c : Crypto} {random : Random} {seckey : Option Bytes} {key : Key}
    (h : eventKey c random seckey = some key) : ∃ secret, createKey c secret = some key := by
  cases seckey with
  | some sec =>
      obtain ⟨secret, -, hkey⟩ := Option.bind_eq_some_iff.mp h
      exact ⟨secret, hkey⟩
  | none =>
      cases hsecret : random.secret with
      | none => simp [eventKey, generateKey, hsecret] at h
      | some secret => exact ⟨secret, by simpa [eventKey, generateKey, hsecret] using h⟩

/-- The event as `make_event` leaves it. -/
def publishedEvent (c : Crypto) (ev : EventT) (pubkey : Block 32) (sig : Block 64) : EventT :=
  { ev with
    pubkey := hexText pubkey.1
    id := hexText (c.sha256 (commitmentText (hashedEvent ev pubkey))).1
    sig := hexText sig.1 }

/-- What a run of `make_event` has when it comes to dump the event: a key, and the signature of the
id under it. -/
structure Signs (c : Crypto) (random : Random) (ev : EventT) (seckey : Option Bytes) (key : Key)
    (sig : Block 64) : Prop where
  context : initSecpContext c random = true
  key_eq : eventKey c random seckey = some key
  fits : (commitmentText (hashedEvent ev key.pubkey)).length < bufferSize
  sig_eq : ∃ aux, random.aux = some aux ∧
    c.schnorrsigSign32 (c.sha256 (commitmentText (hashedEvent ev key.pubkey))) key.pair aux =
      some sig

/-- What `make_event` dumps. -/
def publishedMessage (ev : EventT) : Json :=
  .arr [.str (ascii "EVENT"), toJson ev]

/-- Once the event is signed, it is written back and dumped. -/
theorem make_event_signs (lib : JsonLib) {c : Crypto} {random : Random} {ev : EventT}
    {seckey : Option Bytes} {key : Key} {sig : Block 64} (h : Signs c random ev seckey key sig) :
    makeEvent lib c random ev seckey =
      (lib.dump none (publishedMessage (publishedEvent c ev key.pubkey sig))).map
        fun json => (json, publishedEvent c ev key.pubkey sig) := by
  obtain ⟨aux, haux, hsig⟩ := h.sig_eq
  have hsign := sign_event_eq { hashedEvent ev key.pubkey with
    id := c.sha256 (commitmentText (hashedEvent ev key.pubkey)) } haux hsig
  simp only [makeEvent, h.context, h.key_eq,
    generate_event_id_eq _ (tags_defined_of_none rfl) h.fits, hsign]
  rw [hex_string_eq _ (by omega), hex_string_eq _ (by omega), hex_string_eq _ (by omega)]
  rfl

/-- A run of `make_event` gives up with the event as it was, or signs it. -/
theorem make_event_cases (lib : JsonLib) (c : Crypto) (random : Random) (ev : EventT)
    (seckey : Option Bytes) :
    makeEvent lib c random ev seckey = some ([], ev) ∨
      ∃ key sig, Signs c random ev seckey key sig := by
  unfold makeEvent
  split_ifs with hinit
  · exact .inl rfl
  · split
    · exact .inl rfl
    · next key hkey =>
      split
      · exact .inl rfl
      · exact .inl rfl
      · next nev hid =>
        obtain ⟨-, hfits, rfl⟩ := generate_event_id_some hid
        split
        · exact .inl rfl
        · next nev' hsign =>
          obtain ⟨aux, sig, haux, hsig, -⟩ := sign_event_some hsign
          exact .inr ⟨key, sig, by simpa using hinit, hkey, hfits, aux, haux, hsig⟩

/-- A run of `make_event` that returns a text went through all of its steps. -/
theorem make_event_some {lib : JsonLib} {c : Crypto} {random : Random} {ev ev' : EventT}
    {seckey : Option Bytes} {json : Bytes}
    (h : makeEvent lib c random ev seckey = some (json, ev')) (hjson : json ≠ []) :
    ∃ (secret : Block 32) (key : Key) (aux : Block 32) (sig : Block 64),
      createKey c secret = some key ∧
      c.schnorrsigSign32 (c.sha256 (commitmentText (hashedEvent ev key.pubkey))) key.pair aux =
        some sig ∧
      ev' = publishedEvent c ev key.pubkey sig ∧
      lib.dump none (.arr [.str (ascii "EVENT"), toJson ev']) = some json := by
  rcases make_event_cases lib c random ev seckey with hearly | ⟨key, sig, hsigns⟩
  · rw [hearly] at h
    exact absurd (Prod.mk.inj (Option.some.inj h)).1.symm hjson
  · obtain ⟨secret, hsecret⟩ := event_key_some hsigns.key_eq
    obtain ⟨aux, -, hsig⟩ := hsigns.sig_eq
    rw [make_event_signs lib hsigns] at h
    obtain ⟨text, hdump, htext⟩ := Option.map_eq_some_iff.mp h
    obtain ⟨rfl, rfl⟩ := Prod.mk.inj htext
    exact ⟨secret, key, aux, sig, hsecret, hsig, rfl, hdump⟩

/-! ## When the id commits to the published event -/

/-- A time that is not negative is the same number without its sign. -/
theorem to_uint64_of_nonneg {t : Int64} (h : 0 ≤ t.toInt) : (t.toUInt64.toNat : Int) = t.toInt := by
  have hcond := BitVec.toInt_eq_toNat_cond t.toBitVec
  have hlt := t.toUInt64.toNat_lt
  have hint : t.toInt = t.toBitVec.toInt := rfl
  have hnat : t.toUInt64.toNat = t.toBitVec.toNat := rfl
  split_ifs at hcond <;> omega

/-- The hashed time is the published one when it has at most 15 digits and no sign. -/
theorem time_text_eq_iff (t : Int64) :
    timeText t.toUInt64 = signedDecimal t.toInt ↔ 0 ≤ t.toInt ∧ t.toInt < 10 ^ 15 := by
  by_cases hsign : 0 ≤ t.toInt
  · have hnat := to_uint64_of_nonneg hsign
    rw [← hnat]
    show timeText t.toUInt64 = decimal t.toUInt64.toNat ↔ _
    rw [time_text_eq_decimal_iff]
    omega
  · obtain ⟨n, hn⟩ := Int.eq_negSucc_of_lt_zero (Int.not_le.mp hsign)
    constructor
    · intro h
      have hmem : (45 : UInt8) ∈ timeText t.toUInt64 := by
        rw [h, hn]
        exact List.mem_cons_self
      exact absurd (is_digit_of_mem_decimal (List.mem_of_mem_take hmem)) (by decide)
    · exact fun h => absurd h.1 hsign

/-- The content that is hashed is the published one when it holds no NUL and its length fits an
`int`. -/
theorem counted_content_iff (content : Bytes) :
    (CStr.ofBytes content).counted = content ↔ 0 ∉ content ∧ content.length < 2 ^ 31 := by
  constructor
  · intro h
    have hle : (CStr.ofBytes content).counted.length ≤ (CStr.ofBytes content).bytes.length :=
      List.length_take_le' _ _
    have hprefix : (CStr.ofBytes content).bytes <+: content := List.takeWhile_prefix _
    have hbytes : (CStr.ofBytes content).bytes = content := by
      refine hprefix.eq_of_length (Nat.le_antisymm hprefix.length_le ?_)
      rwa [h] at hle
    refine ⟨CStr.bytes_of_bytes_iff.mp hbytes, ?_⟩
    have hshort := CStr.counted_eq_iff.mp (h.trans hbytes.symm)
    rwa [CStr.strlen, hbytes] at hshort
  · rintro ⟨hnul, hlen⟩
    have hbytes := CStr.bytes_of_bytes hnul
    rw [CStr.counted_eq_iff.mpr (by rw [CStr.strlen, hbytes]; exact hlen), hbytes]

/-- The hashed text is the text of the published event exactly when the event has no tags, its
content holds no NUL and is not too long for an `int`, and its time has at most 15 digits and no
sign. -/
theorem hashed_text_eq_iff (ev : EventT) (pubkey : Block 32) :
    commitmentText (hashedEvent ev pubkey) = nip01Text { ev with pubkey := hexText pubkey.1 } ↔
      ev.tags = [] ∧ (0 ∉ ev.content ∧ ev.content.length < 2 ^ 31) ∧
        0 ≤ ev.createdAt.toInt ∧ ev.createdAt.toInt < 10 ^ 15 := by
  have hhashed : commitmentText (hashedEvent ev pubkey) =
      commitment (hexText pubkey.1) (timeText ev.createdAt.toUInt64) (signedDecimal ev.kind.toInt)
        (bracketed (bracketed quoted 91 44 93) 91 44 93 [])
        (quoted (CStr.ofBytes ev.content).counted) := rfl
  rw [hhashed, nip01Text]
  constructor
  · intro h
    obtain ⟨-, htimes, -, hrest⟩ := commitment_inj (comma_not_mem_time_text _)
      (comma_not_mem_signed_decimal _) (comma_not_mem_signed_decimal _)
      (comma_not_mem_signed_decimal _) h
    obtain ⟨hnone, hrest⟩ := delimited_tag_lists hrest
    obtain ⟨hwhole, -⟩ := delimited_quoted (List.cons.inj hrest).2
    exact ⟨hnone.symm, (counted_content_iff _).mp hwhole, (time_text_eq_iff _).mp htimes⟩
  · rintro ⟨hnone, hcontent, hrange⟩
    rw [(time_text_eq_iff _).mpr hrange, hnone, (counted_content_iff _).mpr hcontent]

/-- An `EVENT` message can be stored. -/
theorem is_storable_event_message (ev : EventT) :
    (Json.arr [.str (ascii "EVENT"), toJson ev]).isStorable = true := by
  simp [is_storable_to_json]

/-- A published text carries one event. -/
theorem Carries.unique {lib : JsonLib} {json : Bytes} {ev ev' : EventT} (h : Carries lib json ev)
    (h' : Carries lib json ev') : ev = ev' := by
  have heq := h.symm.trans h'
  simp only [Option.some.injEq, Json.arr.injEq, List.cons.injEq, and_true, true_and] at heq
  exact to_json_injective heq

/-- The published event has the id of its own text, signed by its own key, exactly when it has no
tags, no NUL in its content, a content that is not too long for an `int`, and a time of at most 15
digits without a sign. -/
theorem make_event_commits_iff (lib : JsonLib) (hlib : lib.Lawful) (c : Crypto) (random : Random)
    (ev ev' : EventT) (seckey : Option Bytes) (json : Bytes)
    (hrun : makeEvent lib c random ev seckey = some (json, ev')) (hjson : json ≠ [])
    (hhash : ∀ pubkey : Block 32, NoCollision c.sha256 (commitmentText (hashedEvent ev pubkey))
      (nip01Text { ev with pubkey := hexText pubkey.1 })) :
    (∃ pub, Carries lib json pub ∧ pub.id = hexText (c.sha256 (nip01Text pub)).1 ∧
        SignedBy c pub) ↔
      ev.tags = [] ∧ (0 ∉ ev.content ∧ ev.content.length < 2 ^ 31) ∧
        0 ≤ ev.createdAt.toInt ∧ ev.createdAt.toInt < 10 ^ 15 := by
  obtain ⟨secret, key, aux, sig, hkey, hsig, rfl, hdump⟩ := make_event_some hrun hjson
  have hcarries : Carries lib json (publishedEvent c ev key.pubkey sig) :=
    hlib.round_trip (is_storable_event_message _) hdump
  -- the text of an event does not depend on its id and its signature
  have hnip : nip01Text (publishedEvent c ev key.pubkey sig) =
    nip01Text { ev with pubkey := hexText key.pubkey.1 } := rfl
  constructor
  · rintro ⟨pub, hpub, hid, -⟩
    obtain rfl := hcarries.unique hpub
    have hdigest := (delimited_hex_text 32).injective hid
    exact (hashed_text_eq_iff ev key.pubkey).mp (hhash key.pubkey (hnip ▸ hdigest))
  · intro hcond
    have hsame := (hashed_text_eq_iff ev key.pubkey).mpr hcond
    refine ⟨_, hcarries, ?_, secret, key, _, aux, sig, hkey, rfl, rfl, hsig, rfl⟩
    rw [hnip, ← hsame]
    rfl

/-- A UTF-8 event is published as a UTF-8 value. -/
theorem is_utf8_published_message (c : Crypto) {ev : EventT} (pubkey : Block 32) (sig : Block 64)
    (htags : ∀ tag ∈ ev.tags, ∀ t ∈ tag, Utf8 t) (hcontent : Utf8 ev.content) :
    (publishedMessage (publishedEvent c ev pubkey sig)).isUtf8 = true := by
  have hhex : ∀ buf : Bytes, Utf8 (hexText buf) := fun buf =>
    utf8_of_ascii fun b hb => UInt8.le_trans (mem_hex_text hb).2.1 (by decide)
  have hutf8 : (publishedEvent c ev pubkey sig).Utf8 :=
    ⟨hhex _, hhex _, htags, hcontent, hhex _⟩
  have hname : Utf8 (ascii "EVENT") := by decide
  simp [publishedMessage, hname, hutf8.to_json]

/-- A signed event in UTF-8 is published. -/
theorem make_event_eq {lib : JsonLib} (hlib : lib.Lawful) {c : Crypto} {random : Random}
    {ev : EventT} {seckey : Option Bytes} {key : Key} {sig : Block 64}
    (hsigns : Signs c random ev seckey key sig)
    (htags : ∀ tag ∈ ev.tags, ∀ t ∈ tag, Utf8 t) (hcontent : Utf8 ev.content) :
    ∃ json, makeEvent lib c random ev seckey =
        some (json, publishedEvent c ev key.pubkey sig) ∧
      Carries lib json (publishedEvent c ev key.pubkey sig) := by
  obtain ⟨json, hdump⟩ := hlib.dump_utf8 none
    (is_utf8_published_message c key.pubkey sig htags hcontent)
  refine ⟨json, ?_, hlib.round_trip (is_storable_event_message _) hdump⟩
  rw [make_event_signs lib hsigns, hdump]
  rfl

/-- The note "hello" of a given time, with some tags. -/
def helloNote (tags : List (List Bytes)) : EventT :=
  { EventT.new 1688794190 with tags := tags, content := ascii "hello" }

/-- The secret key 3 in hexadecimal. -/
def sampleSeckey : Bytes :=
  ascii "0000000000000000000000000000000000000000000000000000000000000003"

/-- The commitment of the sample event. -/
theorem hashed_hello (tags : List (List Bytes)) :
    commitmentText (hashedEvent (helloNote tags) samplePubkey) = sampleText "1688794190" "[]" := by
  have htags : hashedEvent (helloNote tags) samplePubkey =
      hashedEvent (helloNote []) samplePubkey :=
    rfl
  rw [htags]
  rfl

/-- The sample key signs the note. -/
theorem signs_hello (tags : List (List Bytes)) :
    ∃ sig, Signs sampleCrypto sampleRandom (helloNote tags) (some sampleSeckey)
      ⟨samplePair, sampleSecret, samplePubkey⟩ sig := by
  have hkey : eventKey sampleCrypto sampleRandom (some sampleSeckey) =
      some ⟨samplePair, sampleSecret, samplePubkey⟩ := by
    have hsecret : hexDecodeBlock 32 (CStr.ofBytes sampleSeckey) = some sampleSecret :=
      rfl
    simp [eventKey, decodeKey, hsecret, create_sample_key, sampleKey]
  have hfits :
      (commitmentText (hashedEvent (helloNote tags) samplePubkey)).length < bufferSize := by
    rw [hashed_hello]
    decide +kernel
  have hsig : ∃ sig, sampleCrypto.schnorrsigSign32 (sampleCrypto.sha256 (commitmentText
      (hashedEvent (helloNote tags) samplePubkey))) samplePair (.zeros 32) =
      some sig := by
    rw [hashed_hello]
    exact ⟨_, by simp [sampleCrypto, sampleSign]; rfl⟩
  obtain ⟨sig, hsig⟩ := hsig
  exact ⟨sig, rfl, hkey, hfits, _, rfl, hsig⟩

/-- The sample key publishes the note. -/
theorem make_hello {lib : JsonLib} (hlib : lib.Lawful) (tags : List (List Bytes))
    (htags : ∀ tag ∈ tags, ∀ t ∈ tag, Utf8 t) :
    ∃ json sig, makeEvent lib sampleCrypto sampleRandom (helloNote tags) (some sampleSeckey) =
        some (json, publishedEvent sampleCrypto (helloNote tags) samplePubkey sig) ∧
      Carries lib json (publishedEvent sampleCrypto (helloNote tags) samplePubkey sig) := by
  obtain ⟨sig, hsigns⟩ := signs_hello tags
  obtain ⟨json, hrun, hcarries⟩ := make_event_eq hlib hsigns htags
    (show Utf8 (ascii "hello") by decide)
  exact ⟨json, sig, hrun, hcarries⟩

/-- A text that carries an event is not empty. -/
theorem ne_nil_of_carries {json : Bytes} {ev : EventT}
    (h : Carries JsonLib.reference json ev) : json ≠ [] := by
  rintro rfl
  cases h

/-- The id and the signature of the untagged note are its own. -/
theorem make_event_commits_iff_hello :
    ∃ json ev', makeEvent JsonLib.reference sampleCrypto sampleRandom (helloNote [])
        (some sampleSeckey) = some (json, ev') ∧
      ∃ pub, Carries JsonLib.reference json pub ∧
        pub.id = hexText (sampleCrypto.sha256 (nip01Text pub)).1 ∧ SignedBy sampleCrypto pub := by
  obtain ⟨json, sig, hrun, hcarries⟩ := make_hello JsonLib.reference_lawful [] (by simp)
  have hcond : (helloNote []).tags = [] ∧
      (0 ∉ (helloNote []).content ∧ (helloNote []).content.length < 2 ^ 31) ∧
      0 ≤ (helloNote []).createdAt.toInt ∧
      (helloNote []).createdAt.toInt < 10 ^ 15 := by
    decide +kernel
  exact ⟨json, _, hrun, (make_event_commits_iff JsonLib.reference JsonLib.reference_lawful
    sampleCrypto sampleRandom (helloNote []) _ (some sampleSeckey) json hrun
    (ne_nil_of_carries hcarries)
    fun pubkey _ => (hashed_text_eq_iff (helloNote []) pubkey).mpr hcond).mpr hcond⟩

/-- The same note with the tag `["t","x"]` is published under the id of the untagged one. -/
theorem make_event_forgets_tags :
    ¬ ∀ (lib : JsonLib), lib.Lawful → ∀ (c : Crypto) (random : Random) (ev ev' : EventT)
      (seckey : Option Bytes) (json : Bytes),
      makeEvent lib c random ev seckey = some (json, ev') → json ≠ [] →
      ∃ pub, Carries lib json pub ∧ pub.id = hexText (c.sha256 (nip01Text pub)).1 ∧
        SignedBy c pub := by
  intro h
  obtain ⟨json, sig, hrun, hcarries⟩ := make_hello JsonLib.reference_lawful
    [[ascii "t", ascii "x"]] (by simp +decide)
  obtain ⟨pub, hpub, hid, -⟩ := h _ JsonLib.reference_lawful _ _ _ _ _ _ hrun
    (ne_nil_of_carries hcarries)
  obtain rfl := hcarries.unique hpub
  have hdigest := (delimited_hex_text 32).injective hid
  have htext : nip01Text (publishedEvent sampleCrypto (helloNote [[ascii "t", ascii "x"]])
      samplePubkey sig) = sampleText "1688794190" "[[\"t\",\"x\"]]" := by
    show nip01Text { helloNote [[ascii "t", ascii "x"]] with
      pubkey := hexText samplePubkey.1 } = _
    rfl
  rw [hashed_hello, htext] at hdigest
  exact absurd hdigest (by decide +kernel)

/-! ## When it fails cleanly -/

/-- A signed event that is dumped is in UTF-8. -/
theorem utf8_of_make_event {lib : JsonLib} (hstrict : lib.Strict) {c : Crypto} {random : Random}
    {ev ev' : EventT} {seckey : Option Bytes} {key : Key} {sig : Block 64} {json : Bytes}
    (hsigns : Signs c random ev seckey key sig)
    (hrun : makeEvent lib c random ev seckey = some (json, ev')) :
    (∀ tag ∈ ev.tags, ∀ t ∈ tag, Utf8 t) ∧ Utf8 ev.content := by
  rw [make_event_signs lib hsigns] at hrun
  obtain ⟨text, hdump, -⟩ := Option.map_eq_some_iff.mp hrun
  have hutf8 := hstrict none _ text hdump
  rw [publishedMessage, Json.is_utf8_arr] at hutf8
  have hpublished := EventT.Utf8.of_to_json
    (hutf8 _ (List.mem_cons_of_mem _ List.mem_cons_self))
  exact ⟨hpublished.tags, hpublished.content⟩

/-- Either a text is returned, or the empty text and the event as it was, exactly when an event that
is signed has its tags and its content in UTF-8. -/
theorem make_event_clean_iff (lib : JsonLib) (hlib : lib.Lawful) (hstrict : lib.Strict)
    (hempty : lib.parse [] = none) (c : Crypto) (random : Random) (ev : EventT)
    (seckey : Option Bytes) :
    (∃ json ev', makeEvent lib c random ev seckey = some (json, ev') ∧
        (json ≠ [] ∨ json = [] ∧ ev' = ev)) ↔
      ((∃ key sig, Signs c random ev seckey key sig) →
        (∀ tag ∈ ev.tags, ∀ t ∈ tag, Utf8 t) ∧ Utf8 ev.content) := by
  constructor
  · rintro ⟨json, ev', hrun, -⟩ ⟨key, sig, hsigns⟩
    exact utf8_of_make_event hstrict hsigns hrun
  · intro hutf8
    rcases make_event_cases lib c random ev seckey with hearly | ⟨key, sig, hsigns⟩
    · exact ⟨[], ev, hearly, .inr ⟨rfl, rfl⟩⟩
    · obtain ⟨htags, hcontent⟩ := hutf8 ⟨key, sig, hsigns⟩
      obtain ⟨json, hrun, hcarries⟩ := make_event_eq hlib hsigns htags hcontent
      refine ⟨json, _, hrun, .inl ?_⟩
      rintro rfl
      rw [Carries, hempty] at hcarries
      cases hcarries

/-- The sample note passes. -/
theorem make_event_clean_iff_hello :
    ∃ json ev', makeEvent JsonLib.reference sampleCrypto sampleRandom (helloNote [])
        (some sampleSeckey) = some (json, ev') ∧ (json ≠ [] ∨ json = [] ∧ ev' = helloNote []) :=
  (make_event_clean_iff JsonLib.reference JsonLib.reference_lawful JsonLib.reference_strict rfl
    sampleCrypto sampleRandom (helloNote []) (some sampleSeckey)).mpr fun _ =>
      ⟨by simp [helloNote], by decide⟩

/-- A tag that is not UTF-8 makes dumping throw, with the event written over. -/
theorem make_event_throws :
    ¬ ∀ (lib : JsonLib), lib.Lawful → lib.Strict → lib.parse [] = none →
      ∀ (c : Crypto) (random : Random) (ev : EventT) (seckey : Option Bytes),
      ∃ json ev', makeEvent lib c random ev seckey = some (json, ev') ∧
        (json ≠ [] ∨ json = [] ∧ ev' = ev) := by
  intro h
  obtain ⟨json, ev', hrun, -⟩ := h JsonLib.reference JsonLib.reference_lawful
    JsonLib.reference_strict rfl sampleCrypto sampleRandom (helloNote [[[255]]]) (some sampleSeckey)
  obtain ⟨sig, hsigns⟩ := signs_hello [[[255]]]
  obtain ⟨htags, -⟩ := utf8_of_make_event JsonLib.reference_strict hsigns hrun
  exact absurd (htags [[255]] List.mem_cons_self [255] List.mem_cons_self) (by decide)

/-! ## Round trips -/

/-- What `make_event` returns, what the relay sends and what it stores can be read back. -/
theorem event_formats_round_trip (lib : JsonLib) (hlib : lib.Lawful) :
    (∀ (c : Crypto) (random : Random) (ev ev' : EventT) (seckey : Option Bytes) (json : Bytes),
      makeEvent lib c random ev seckey = some (json, ev') → json ≠ [] →
      ∀ old, parseClientEvent lib json old = (0, ev')) ∧
    (∀ (ev : EventT) (id : Bytes), ev.Utf8 → Utf8 id →
      ∃ json, lib.dump none (.arr [.str (ascii "EVENT"), .str id, toJson ev]) = some json ∧
        ∀ oldId old, parseRelayEvent lib json oldId old = (0, id, ev)) ∧
    (∀ (events : List EventT) (file : Option Bytes), (∀ ev ∈ events, ev.Utf8) →
      (∃ json, save lib events file = (0, some json) ∧ read lib (some json) = events) ∧
        ∃ json, append lib events file = (0, some json) ∧
          read lib (some json) = read lib file ++ events) := by
  refine ⟨?_, ?_, fun events file h => ⟨read_save hlib h file, read_append hlib h file⟩⟩
  · intro c random ev ev' seckey json hrun hjson old
    obtain ⟨-, -, -, -, -, -, -, hdump⟩ := make_event_some hrun hjson
    have hread := read_message_eq (hlib.round_trip (is_storable_event_message ev') hdump)
    simp [parseClientEvent, hread, Json.element, from_json_to_json, status]
  · intro ev id hev hid
    have hname : Utf8 (ascii "EVENT") := by decide
    obtain ⟨json, hdump⟩ := hlib.dump_utf8 none
      (v := .arr [.str (ascii "EVENT"), .str id, toJson ev]) (by simp [hname, hid, hev.to_json])
    have hread := read_message_eq (hlib.round_trip (by simp [is_storable_to_json]) hdump)
    refine ⟨json, hdump, fun oldId old => ?_⟩
    simp [parseRelayEvent, hread, Json.element, Json.toStr, from_json_to_json, status]

/-- The sample note is read back from what was published, and the stored note from the file it was
saved to. -/
theorem event_formats_round_trip_note :
    (∃ json ev', makeEvent JsonLib.reference sampleCrypto sampleRandom (helloNote [])
        (some sampleSeckey) = some (json, ev') ∧
      ∀ old, parseClientEvent JsonLib.reference json old = (0, ev')) ∧
    ∃ json, save JsonLib.reference [storedNote] none = (0, some json) ∧
      read JsonLib.reference (some json) = [storedNote] := by
  obtain ⟨hclient, -, hfile⟩ :=
    event_formats_round_trip JsonLib.reference JsonLib.reference_lawful
  obtain ⟨json, sig, hrun, hcarries⟩ := make_hello JsonLib.reference_lawful [] (by simp)
  exact ⟨⟨json, _, hrun, hclient _ _ _ _ _ _ hrun (ne_nil_of_carries hcarries)⟩,
    (hfile [storedNote] none (by simpa using utf8_stored_note)).1⟩

end Gnostr.Relay
