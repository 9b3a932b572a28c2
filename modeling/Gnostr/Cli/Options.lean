import Gnostr.Cli.Main

/-!
# What the options promise

Promises of the command line of `gnostr.c`. Tags come from four options and from the recipient of a
message, and proof of work from the id or from the key. `parse_args` keeps some options apart and
not others: `--tags` behind an added tag is refused, but in front of one it is accepted, and the
text it gives then stands in place of every tag. A key that is given is not mined, whatever work
was asked of it. An id is mined with the least nonce that is good enough.
-/

namespace Gnostr

open Wire

/-! ## Tags -/

/-- The tags a command line asks for: one for every option, and the recipient. -/
def wantedTags (argv : List CStr) : List NostrTag :=
  requestedTags argv ++
    ((lastOperand .dm argv).map fun operand => recipientTag (recipient operand)).toList

/-- The JSON value of a tag. -/
def NostrTag.json (tag : NostrTag) : Json :=
  .arr (tag.strs.map fun s => .str s.bytes)

/-- A text lists the given tags, in order: it is a list as the program writes it, or a JSON array
that has them among its elements. -/
def Lists (text : Bytes) (tags : List NostrTag) : Prop :=
  tags = [] ∨ (∃ listed, text = bracketed tagText 91 44 93 listed ∧ tags.Sublist listed) ∨
    ∃ values, Json.Text text (.arr values) ∧ (tags.map NostrTag.json).Sublist values

/-- The recipient the program encrypts to is the operand of the last `--dm`. -/
theorem recipient_tags {einval : Bool} {errno : Nat} {argv : List CStr} {st : ParseState}
    (h : parseArgs einval errno argv = .ok st) :
    (if st.args.flags.encrypt then [recipientTag st.args.encryptTo] else []) =
      ((lastOperand .dm argv).map fun operand => recipientTag (recipient operand)).toList := by
  have hdm := encrypt_parse_args h
  split_ifs at hdm with hencrypt
  · rw [if_pos hencrypt]
    cases hoperand : lastOperand .dm argv with
    | none =>
        rw [hoperand] at hdm
        cases hdm
    | some operand =>
        rw [hoperand] at hdm
        rw [Option.some.inj hdm]
        rfl
  · rw [if_neg hencrypt]
    cases hoperand : lastOperand .dm argv with
    | none => rfl
    | some operand =>
        rw [hoperand] at hdm
        cases hdm

/-- The tags of a printed event: all that were asked for and perhaps a nonce, with the text behind
the last `--tags` in front of them. -/
theorem tags_main_ok {host : Host} {fuel : Nat} {argv : List CStr} {o : Output}
    (h : main host fuel argv = .ok o) :
    o.ev.explicitTags = lastOperand .tags argv ∧
      ∃ extra, o.ev.tags = wantedTags argv ++ extra := by
  obtain ⟨st, key, dm, ev, sig, hread, -, hdm, hid, hev, -⟩ := steps_of_main h
  have hparse := read_args_ok hread
  obtain ⟨content, kind, rfl⟩ := main_dm_ok hdm
  obtain ⟨extra, hgenerate, -⟩ := main_id_ok hid
  rw [hev, generate_event_id_success hgenerate]
  constructor
  · show st.args.tags.or st.ev.explicitTags = _
    rw [event_parse_args hparse, tags_parse_args hparse]
    exact Option.or_none
  · refine ⟨extra, ?_⟩
    show (st.ev.tags ++ _) ++ extra = _
    rw [recipient_tags hparse, event_parse_args hparse]
    rfl

/-- The tags of a printed event fit the buffer. -/
theorem main_tags_room {host : Host} {fuel : Nat} {argv : List CStr} {o : Output}
    (h : main host fuel argv = .ok o) : (tagsText o.ev).length < bufferSize := by
  obtain ⟨st, key, dm, ev, sig, -, -, -, hid, hev, -⟩ := steps_of_main h
  obtain ⟨extra, hgenerate, -⟩ := main_id_ok hid
  obtain ⟨-, hroom, rfl⟩ := generate_event_id_some hgenerate
  rw [hev]
  exact (parts_of_commitment_fit hroom).1

/-- A listed tag is no longer than the text that lists it. -/
theorem Lists.strlen_le {text : Bytes} {tags : List NostrTag} (h : Lists text tags) {tag : NostrTag}
    (htag : tag ∈ tags) {s : CStr} (hs : s ∈ tag.strs) : s.strlen ≤ text.length := by
  rcases h with rfl | ⟨listed, rfl, hsub⟩ | ⟨values, htext, hsub⟩
  · exact absurd htag List.not_mem_nil
  · have htext : (tagText tag).length ≤ (separated tagText 44 listed).length :=
      length_item_le_separated (44 : UInt8) (hsub.subset htag)
    have hquoted : (quoted s.bytes).length ≤
        (separated (fun s : CStr => quoted s.bytes) 44 tag.strs).length :=
      @length_item_le_separated _ _ (fun s : CStr => quoted s.bytes) 44 tag.strs s hs
    have hbytes := length_le_escaped s.bytes
    have hquote : (quoted s.bytes).length = (s.bytes.flatMap escaped).length + 2 := by simp [quoted]
    have htag : (tagText tag).length =
        (separated (fun s : CStr => quoted s.bytes) 44 tag.strs).length + 2 := length_bracketed ..
    rw [length_bracketed, CStr.strlen]
    omega
  · have hvalue : tag.json ∈ values := hsub.subset (List.mem_map_of_mem htag)
    exact htext.length_of_holds (.item hvalue (.item (List.mem_map_of_mem hs) .str))

/-- The tags the program writes are listed if no string of theirs is too long for an `int`. -/
theorem lists_written {ev : NostrEvent} {tags extra : List NostrTag}
    (hexplicit : ev.explicitTags = none) (htags : ev.tags = tags ++ extra)
    (hshort : ∀ tag ∈ tags, ∀ s ∈ tag.strs, s.strlen < 2 ^ 31) : Lists (tagsText ev) tags := by
  let cutTag := fun tag : NostrTag => (⟨tag.strs.map CStr.cut⟩ : NostrTag)
  have htext : tagsText ev = bracketed tagText 91 44 93 (ev.tags.map cutTag) := by
    rw [tagsText, tagsTextBy, hexplicit, bracketed_map]
    refine congrArg (fun item => bracketed item 91 44 93 ev.tags) (funext fun tag => ?_)
    exact (bracketed_map (fun s : CStr => quoted s.bytes) CStr.cut 91 44 93 tag.strs).symm
  have hcut : tags.map cutTag = tags := by
    refine (List.map_congr_left fun tag htag => ?_).trans (List.map_id tags)
    have hstrs : tag.strs.map CStr.cut = tag.strs :=
      (List.map_congr_left fun s hs => CStr.cut_of_lt (hshort tag htag s hs)).trans
        (List.map_id tag.strs)
    exact congrArg NostrTag.mk hstrs
  refine .inr (.inl ⟨_, htext, ?_⟩)
  rw [htags, List.map_append, hcut]
  exact List.sublist_append_left _ _

/-- Every tag asked for is printed and committed to exactly when the text behind the last `--tags`,
as far as it is read, lists them all itself, or when there is no such text and no string of theirs
is too long for an `int`. -/
theorem main_lists_tags_iff (host : Host) (fuel : Nat) (argv : List CStr) (o : Output)
    (h : main host fuel argv = .ok o) :
    o.out = (printed o.ev).line o.envelope ∧ hashed o.ev = commitmentText o.ev ∧
      (Lists (tagsText o.ev) (wantedTags argv) ↔
        match lastOperand .tags argv with
        | some text => Lists text.counted (wantedTags argv)
        | none => ∀ tag ∈ wantedTags argv, ∀ s ∈ tag.strs, s.strlen < 2 ^ 31) := by
  obtain ⟨hid, -, hout⟩ := main_ok h
  obtain ⟨hexplicit, extra, htags⟩ := tags_main_ok h
  refine ⟨hout, hid.hashed_eq, ?_⟩
  cases htext : lastOperand .tags argv with
  | some text =>
      rw [htext] at hexplicit
      rw [tagsText, tagsTextBy, hexplicit]
  | none =>
      rw [htext] at hexplicit
      constructor
      · -- what was printed is short, and so is every string it lists
        intro hlists tag htag s hs
        have hroom := main_tags_room h
        have hlen := hlists.strlen_le htag hs
        have hsize : bufferSize = 102400 := rfl
        omega
      · exact lists_written hexplicit htags

/-- `--tags` with an empty list, and an event in front of the sample note. -/
def tagsArgv : List CStr :=
  arg "--tags" :: arg "[]" :: arg "-e" :: arg "x" :: sampleArgv "1688794190"

/-- The note that is hashed. -/
def tagsNote : NostrEvent :=
  { sampleHashed "1688794190" with
    explicitTags := some (arg "[]"), tags := [⟨[arg "e", arg "x"]⟩] }

/-- The program accepts these arguments and prints a note without tags. -/
theorem main_tags_argv :
    ∃ o, main sampleHost 0 tagsArgv = .ok o ∧ tagsText o.ev = ascii "[]" := by
  have htags : readOption (arg "--tags") = some .tags := rfl
  have hevent : readOption (arg "-e") = some .e := rfl
  have htime : strtolErrno false (arg "1688794190").bytes 0 = 0 := rfl
  have hread : readArgs sampleHost tagsArgv = .ok
      ⟨{ (sampleParsed "1688794190").args with tags := some (arg "[]") },
        { NostrEvent.zero with tags := [⟨[arg "e", arg "x"]⟩] }, true, 0⟩ :=
    read_args_eq (List.cons_ne_nil _ _)
      (.operand htags rfl rfl (.operand hevent rfl rfl (parses_sample rfl htime))) rfl
  have htext : commitmentText tagsNote = sampleText "1688794190" "[]" := rfl
  obtain ⟨sig, hsig⟩ := sign_sample_note
  obtain ⟨o, hmain, hev⟩ := main_note tagsNote hread rfl rfl (by simp [sampleParsed, Args.zero])
    rfl (by decide) htext sample_text_room.1 hsig
  refine ⟨o, hmain, ?_⟩
  rw [hev]
  show (arg "[]").counted = _
  rfl

/-- An empty list lists no tag. -/
theorem not_lists_empty {tags : List NostrTag} (h : tags ≠ []) : ¬ Lists (ascii "[]") tags := by
  rintro (hnil | ⟨listed, htext, hsub⟩ | ⟨values, htext, hsub⟩)
  · exact h hnil
  · have hempty : bracketed tagText 91 44 93 [] = bracketed tagText 91 44 93 listed := htext
    rw [← delimited_tags.injective hempty] at hsub
    exact h (List.sublist_nil.mp hsub)
  · have hdecode := Json.decode_of_text htext
    have hempty : Json.decode (ascii "[]") = some (.arr []) := rfl
    obtain rfl : values = [] := by simpa [hempty, eq_comm] using hdecode
    exact h (List.map_eq_nil_iff.mp (List.sublist_nil.mp hsub))

/-- Without `--tags`, the tags of the sample note are the ones asked for. -/
theorem main_lists_tags_iff_hello :
    ∃ o, main sampleHost 0 (sampleArgv "1688794190") = .ok o ∧
      Lists (tagsText o.ev) (wantedTags (sampleArgv "1688794190")) := by
  obtain ⟨sig, hsig⟩ := sign_sample_note
  obtain ⟨o, hmain, -⟩ := main_sample rfl hashed_sample.1 sample_text_room.1 hsig
  refine ⟨o, hmain, (main_lists_tags_iff sampleHost 0 _ o hmain).2.2.mpr ?_⟩
  have hnone : lastOperand .tags (sampleArgv "1688794190") = none := rfl
  have hwanted : wantedTags (sampleArgv "1688794190") = [] := rfl
  rw [hnone, hwanted]
  exact fun _ htag => absurd htag List.not_mem_nil

/-- The list behind `--tags` stands in place of the event behind it. -/
theorem main_drops_tags :
    ¬ ∀ (host : Host) (fuel : Nat) (argv : List CStr) (o : Output),
      main host fuel argv = .ok o → Lists (tagsText o.ev) (wantedTags argv) := by
  intro h
  obtain ⟨o, hmain, htext⟩ := main_tags_argv
  have hlists := h sampleHost 0 tagsArgv o hmain
  have hwanted : wantedTags tagsArgv ≠ [] := by decide +kernel
  rw [htext] at hlists
  exact not_lists_empty hwanted hlists

/-! ## Proof of work -/

/-- What is known of the work of a printed event. -/
theorem work_main_ok {host : Host} {fuel : Nat} {argv : List CStr} {o : Output} {pow : CStr}
    (h : main host fuel argv = .ok o) (hpow : lastOperand .pow argv = some pow) :
    (minesPubkey argv = false → (powValue pow).toInt ≤ countLeadingZeroBits o.ev.id.1) ∧
      (minesPubkey argv = true → lastOperand .sec argv = none →
        (powValue pow).toInt ≤ countLeadingZeroBits o.ev.pubkey.1) ∧
      ∀ sec, lastOperand .sec argv = some sec →
        ∃ key, decodeKey host.crypto sec = some key ∧ o.ev.pubkey = key.pubkey := by
  obtain ⟨st, key, dm, ev, sig, hread, hkey, hdm, hid, hev, -⟩ := steps_of_main h
  have hparse := read_args_ok hread
  have hdifficulty := difficulty_parse_args hparse
  have hmine := mine_pubkey_parse_args hparse
  rw [hpow] at hdifficulty
  split_ifs at hdifficulty with hflag
  · obtain hvalue := Option.some.inj hdifficulty
    obtain ⟨extra, hgenerate, hwork⟩ := main_id_ok hid
    have hpubkey : o.ev.pubkey = key.pubkey := by
      rw [hev, generate_event_id_success hgenerate]
    refine ⟨fun hno => ?_, fun hyes hsec => ?_, fun sec hsec => ?_⟩
    · rw [← hvalue, hev]
      exact hwork hflag (hmine.trans hno)
    -- only a key the run makes itself is mined
    · rw [hpubkey, ← hvalue]
      rcases main_key_ok hkey with ⟨given, hgiven, -⟩ | ⟨-, hmined⟩
      · rw [sec_parse_args hparse, hsec] at hgiven
        cases hgiven
      · exact hmined hflag (hmine.trans hyes)
    · rcases main_key_ok hkey with ⟨given, hgiven, hdecode⟩ | ⟨hnone, -⟩
      · rw [sec_parse_args hparse, hsec] at hgiven
        cases hgiven
        exact ⟨key, hdecode, hpubkey⟩
      · rw [sec_parse_args hparse, hsec] at hnone
        cases hnone
  · cases hdifficulty

/-- The work asked for is delivered exactly when no key is given to a run that mines the key, or
the given key has the work already. -/
theorem main_delivers_work_iff (host : Host) (fuel : Nat) (argv : List CStr) (o : Output)
    (h : main host fuel argv = .ok o) (pow : CStr) (hpow : lastOperand .pow argv = some pow) :
    (if minesPubkey argv then (powValue pow).toInt ≤ countLeadingZeroBits o.ev.pubkey.1
        else (powValue pow).toInt ≤ countLeadingZeroBits o.ev.id.1) ↔
      (minesPubkey argv = true → ∀ sec key, lastOperand .sec argv = some sec →
        decodeKey host.crypto sec = some key →
        (powValue pow).toInt ≤ countLeadingZeroBits key.pubkey.1) := by
  obtain ⟨hid, hmined, hgiven⟩ := work_main_ok h hpow
  cases hmine : minesPubkey argv with
  | false =>
      rw [if_neg Bool.false_ne_true]
      constructor
      · intro _ hyes
        cases hyes
      · intro _
        exact hid hmine
  | true =>
      rw [if_pos rfl]
      constructor
      · intro hwork _ sec key hsec hdecode
        obtain ⟨given, hgivenKey, hpubkey⟩ := hgiven sec hsec
        obtain rfl := Option.some.inj (hdecode.symm.trans hgivenKey)
        rwa [← hpubkey]
      · intro hkeys
        cases hsec : lastOperand .sec argv with
        | none => exact hmined hmine hsec
        | some sec =>
            obtain ⟨key, hdecode, hpubkey⟩ := hgiven sec hsec
            rw [hpubkey]
            exact hkeys rfl sec key hsec hdecode

/-- SHA-256 on the texts of the sample note with its first two nonces. -/
def minedSha256 (t : Bytes) : Block 32 :=
  if (indexOf (ascii "\"nonce\",\"0\"") t).isSome then
    hexBlock 32 "14368014c66e17946aca5ed0455a54ccca94d374e8ecae08c152a17901aebe14"
  else if (indexOf (ascii "\"nonce\",\"1\"") t).isSome then
    hexBlock 32 "0f213002f602e21209077b119ee17b9438af43856cfa1df16d88159b334c144c"
  else .zeros 32

/-- The signature of the sample note with its second nonce. -/
def minedSign (id : Block 32) (pair : Block 96) (aux : Block 32) : Option (Block 64) :=
  if pair = samplePair ∧ aux = .zeros 32 ∧ id = minedSha256 (ascii "\"nonce\",\"1\"") then
    some (hexBlock64 "f031520bbe76187de60eb7907d2dbb0a4e0a64cdf0e8258aabddf6d3478f41e1"
      "6677b2f4ef4c4bb24d2c86ece935ee7229caa5e2806af7cb484c058e5ed856da")
  else none

def minedHost : Host :=
  { sampleHost with
    crypto := { sampleCrypto with sha256 := minedSha256, schnorrsigSign32 := minedSign } }

/-- The event with four bits of work, and the program's line for it. -/
theorem main_mined :
    ∃ o, main minedHost 2 (arg "--pow" :: arg "4" :: sampleArgv "1688794190") = .ok o := by
  have hpow : readOption (arg "--pow") = some .pow := rfl
  have htime : strtolErrno false (arg "1688794190").bytes 0 = 0 := rfl
  have hdifficulty : parseOperand false ⟨Args.zero, NostrEvent.zero, false, 0⟩ .pow (arg "4") =
      .ok ⟨{ Args.zero with
        difficulty := 4, flags := { Args.zero.flags with difficulty := true } },
        NostrEvent.zero, false, 0⟩ := rfl
  let st : ParseState := ⟨{ (sampleParsed "1688794190").args with
    difficulty := 4, flags := { Args.zero.flags with createdAt := true, difficulty := true } },
    NostrEvent.zero, false, 0⟩
  have hread : readArgs minedHost (arg "--pow" :: arg "4" :: sampleArgv "1688794190") = .ok st :=
    read_args_eq (List.cons_ne_nil _ _)
      (.operand hpow rfl hdifficulty (parses_sample rfl htime)) rfl
  -- the first nonce gives three bits, the second four
  have hid : (mineEvent minedSha256 2 (sampleHashed "1688794190") 4).toOption.map (·.id) =
      some (minedSha256 (ascii "\"nonce\",\"1\"")) := by decide +kernel
  cases hmine : mineEvent minedSha256 2 (sampleHashed "1688794190") 4 with
  | error stop =>
      rw [hmine] at hid
      cases hid
  | ok ev =>
      rw [hmine] at hid
      have hid : ev.id = minedSha256 (ascii "\"nonce\",\"1\"") := Option.some.inj hid
      obtain ⟨nonce, hgenerate, -⟩ := mine_event_ok hmine
      have hkey : mainKey minedHost 2 st.args = .ok sampleKey := by
        have hsec : st.args.sec = some sampleSec := rfl
        have hdecode : decodeKey minedHost.crypto sampleSec = some sampleKey := decode_sample_sec
        simp only [mainKey, hsec, hdecode]
      have hdm : mainDm minedHost st.args sampleKey
          (makeEventFromArgs minedHost.clock st.ev st.args) = .ok _ := if_neg Bool.false_ne_true
      have hmined : mainId minedHost 2 st.args (sampleHashed "1688794190") = .ok ev := by
        have hflags : st.args.flags.difficulty = true ∧ ¬ st.args.flags.minePubkey = true :=
          ⟨rfl, Bool.false_ne_true⟩
        rw [mainId, if_pos hflags]
        exact hmine
      obtain ⟨sig, hsig⟩ : ∃ sig, minedSign ev.id samplePair (.zeros 32) = some sig :=
        ⟨_, if_pos ⟨rfl, rfl, hid⟩⟩
      have hsign : mainSign minedHost sampleKey ev = .ok { ev with sig := sig } := by
        have haux : minedHost.random.aux = some (.zeros 32) := rfl
        have hschnorr : minedHost.crypto.schnorrsigSign32 = minedSign := rfl
        have hpair : sampleKey.pair = samplePair := rfl
        simp only [mainSign, signEvent, makeSig, haux, hschnorr, hpair, hsig, Option.bind_eq_bind,
          Option.bind_some]
      have hprint := print_generated hgenerate ev.id sig st.args.flags.envelope
      exact ⟨_, main_of_steps hread hkey hdm hmined hsign (by rw [mainPrint, hprint])⟩

/-- The work asked for is delivered. -/
theorem main_delivers_work_iff_four :
    ∃ o, main minedHost 2 (arg "--pow" :: arg "4" :: sampleArgv "1688794190") = .ok o ∧
      4 ≤ countLeadingZeroBits o.ev.id.1 := by
  obtain ⟨o, hmain⟩ := main_mined
  have hpow : lastOperand .pow (arg "--pow" :: arg "4" :: sampleArgv "1688794190") =
      some (arg "4") := rfl
  have hmine : minesPubkey (arg "--pow" :: arg "4" :: sampleArgv "1688794190") = false := rfl
  have hiff := main_delivers_work_iff minedHost 2 _ o hmain (arg "4") hpow
  rw [hmine, if_neg Bool.false_ne_true] at hiff
  have hwork := hiff.mpr nofun
  have hfour : (powValue (arg "4")).toInt = 4 := rfl
  rw [hfour] at hwork
  exact ⟨o, hmain, by omega⟩

/-- A difficulty for the key, in front of the sample note. -/
def powArgv (difficulty : String) : List CStr :=
  arg "--pow" :: arg difficulty :: arg "--mine-pubkey" :: sampleArgv "1688794190"

/-- The program accepts these arguments and prints the note by the sample key. -/
theorem main_pow_argv (difficulty : String)
    (h : strtolErrno false (arg difficulty).bytes 0 = 0) :
    ∃ o, main sampleHost 0 (powArgv difficulty) = .ok o ∧ o.ev.pubkey = samplePubkey := by
  have hpow : readOption (arg "--pow") = some .pow := rfl
  have hmine : readOption (arg "--mine-pubkey") = some .minePubkey := rfl
  have htime : strtolErrno false (arg "1688794190").bytes 0 = 0 := rfl
  have hdifficulty : parseOperand false ⟨Args.zero, NostrEvent.zero, false, 0⟩ .pow
      (arg difficulty) = .ok ⟨{ Args.zero with
        difficulty := powValue (arg difficulty),
        flags := { Args.zero.flags with difficulty := true } }, NostrEvent.zero, false, 0⟩ := by
    simp [parseOperand, parseNumber, h, einvalCode, Args.zero, powValue, bind, Except.bind, pure,
      Except.pure]
  have hread := read_args_eq (List.cons_ne_nil _ _)
    (.operand hpow rfl hdifficulty (.minePubkey hmine (parses_sample rfl htime))) rfl
  obtain ⟨sig, hsig⟩ := sign_sample_note
  obtain ⟨o, hmain, hev⟩ := main_note (sampleHashed "1688794190") hread rfl rfl
    (by simp [ParseState.setMinePubkey]) rfl (tags_defined_of_none rfl) hashed_sample.1
    sample_text_room.1 hsig
  exact ⟨o, hmain, by rw [hev]; rfl⟩

/-- A key that is given has no work, and the note is printed all the same. -/
theorem main_skips_work :
    ¬ ∀ (host : Host) (fuel : Nat) (argv : List CStr) (o : Output),
      main host fuel argv = .ok o → ∀ pow, lastOperand .pow argv = some pow →
      if minesPubkey argv then (powValue pow).toInt ≤ countLeadingZeroBits o.ev.pubkey.1
        else (powValue pow).toInt ≤ countLeadingZeroBits o.ev.id.1 := by
  intro h
  obtain ⟨o, hmain, hpubkey⟩ := main_pow_argv "255" rfl
  have hpow : lastOperand .pow (powArgv "255") = some (arg "255") := rfl
  have hmine : minesPubkey (powArgv "255") = true := rfl
  have hwork := h sampleHost 0 (powArgv "255") o hmain (arg "255") hpow
  rw [hmine, if_pos rfl, hpubkey] at hwork
  exact absurd hwork (by decide +kernel)

/-! ## The nonce -/

/-- The decimal text of a nonce is never cut, and holds no NUL. -/
theorem mined_tag_eq (nonce : UInt64) (target : CStr) :
    minedTag nonce target = ⟨[nonceTag, CStr.ofBytes (decimal nonce.toNat), target]⟩ := by
  have hlen : (decimal nonce.toNat).length ≤ 31 := by
    have hlt := nonce.toNat_lt
    exact (length_decimal_le_iff (by omega)).mpr (by omega)
  rw [minedTag, snprintf, List.take_of_length_le hlen]

/-- A mined event has the hash of its own text for its id and one tag more than before; its nonce
is the least with which the id has the work. -/
theorem mine_event_least (sha256 : Bytes → Block 32) (fuel : Nat) (ev ev' : NostrEvent)
    (difficulty : Int32) (h : mineEvent sha256 fuel ev difficulty = .ok ev') :
    ev'.id = sha256 (hashed ev') ∧ difficulty.toInt ≤ countLeadingZeroBits ev'.id.1 ∧
      ∃ (k : UInt64) (target : CStr),
        ev' = { ev with
          id := ev'.id
          tags := ev.tags ++ [⟨[nonceTag, CStr.ofBytes (decimal k.toNat), target]⟩] } ∧
        (CStr.ofBytes (decimal k.toNat)).bytes = decimal k.toNat ∧
        ∀ j < k, ∃ tried, generateEventId sha256 { ev with
            tags := ev.tags ++ [⟨[nonceTag, CStr.ofBytes (decimal j.toNat), target]⟩] } =
            some (true, tried) ∧
          countLeadingZeroBits tried.id.1 < difficulty.toInt := by
  obtain ⟨k, hid, hwork, hsmaller⟩ := mine_event_ok h
  simp only [NostrEvent.nonced, mined_tag_eq] at hid hsmaller
  obtain ⟨⟨-, hhash⟩, -⟩ := generate_event_id_has_id hid
  refine ⟨hhash, hwork, k, targetText difficulty, ?_, ?_, hsmaller⟩
  · rw [generate_event_id_success hid]
  · refine CStr.bytes_of_bytes fun hnul => ?_
    exact absurd (is_digit_of_mem_decimal hnul) (by decide)

/-- The sample note has four bits of work with its second nonce. -/
theorem mine_event_least_hello :
    ∃ ev', mineEvent minedSha256 2 (sampleHashed "1688794190") 4 = .ok ev' ∧
      ev'.id = minedSha256 (hashed ev') ∧ 4 ≤ countLeadingZeroBits ev'.id.1 := by
  have hmined : (mineEvent minedSha256 2 (sampleHashed "1688794190") 4).toOption.isSome = true := by
    decide +kernel
  cases hrun : mineEvent minedSha256 2 (sampleHashed "1688794190") 4 with
  | error stop =>
      rw [hrun] at hmined
      cases hmined
  | ok ev' =>
      obtain ⟨hid, hwork, -⟩ := mine_event_least minedSha256 2 _ ev' 4 hrun
      have hfour : (4 : Int32).toInt = 4 := by decide
      rw [hfour] at hwork
      exact ⟨ev', rfl, hid, by omega⟩

/-! ## The assertions of the miner -/

/-- The events `mine_event` may be called with: those a command line asks for, encrypted or not,
under any public key. -/
inductive Mineable (einval : Bool) (errno : Nat) (argv : List CStr) : NostrEvent → Prop where
  | parsed {st : ParseState} (clock : UInt64) (pubkey : Block 32)
      (hparse : parseArgs einval errno argv = .ok st) :
      Mineable einval errno argv { makeEventFromArgs clock st.ev st.args with pubkey := pubkey }
  | encrypted {st : ParseState} {ev : NostrEvent} (clock : UInt64) (pubkey : Block 32) (env : Env)
      (key : Key) (nostrPubkey : Block 32) (kind : Int32)
      (hparse : parseArgs einval errno argv = .ok st)
      (hdm : makeEncryptedDm env key (makeEventFromArgs clock st.ev st.args) nostrPubkey kind =
        .ok ev) :
      Mineable einval errno argv { ev with pubkey := pubkey }

/-- Where `ensure_nonce_tag` returns 1, the tag at its index is what `mine_event` asserts. -/
def NonceAsserted (ev : NostrEvent) (difficulty : Int32) : Prop :=
  ∀ tagged index, ensureNonceTag ev difficulty = some (tagged, index) →
    ∃ tag, tagged.tags[index]? = some tag ∧ tag.strs.length = 3 ∧ tag.strs.head? = some nonceTag

/-- The tags asked for, and the recipient if there is one. -/
theorem Mineable.tags {einval : Bool} {errno : Nat} {argv : List CStr} {ev : NostrEvent}
    (h : Mineable einval errno argv ev) :
    ∃ added, ev.tags = requestedTags argv ++ added ∧ ∀ tag ∈ added, isShortNonce tag = false := by
  cases h with
  | @parsed st clock pubkey hparse =>
      refine ⟨[], ?_, fun _ htag => absurd htag List.not_mem_nil⟩
      simp [makeEventFromArgs, event_parse_args hparse]
  | @encrypted st ev clock pubkey env key nostrPubkey kind hparse hdm =>
      obtain ⟨secret, iv, -, -, rfl⟩ := make_encrypted_dm_event hdm
      refine ⟨[⟨[pTag, hexStr nostrPubkey]⟩], ?_, fun tag htag => ?_⟩
      · simp [makeEventFromArgs, event_parse_args hparse]
      · have hp : ¬ pTag = nonceTag := by decide
        rw [List.mem_singleton.mp htag]
        simp [isShortNonce, hp]

/-- Of the options that add a tag, only `--tag` can name it `nonce`. -/
theorem requested_short_nonce (argv : List CStr) :
    (∃ tag ∈ requestedTags argv, isShortNonce tag = true) ↔
      ∃ value, (Opt.tag, [nonceTag, value]) ∈ groups argv := by
  constructor
  · rintro ⟨tag, htag, hnonce⟩
    obtain ⟨group, hgroup, htagOf⟩ := List.mem_filterMap.mp htag
    have hnames : ¬ CStr.ofBytes (ascii "e") = nonceTag ∧ ¬ CStr.ofBytes (ascii "p") = nonceTag ∧
        ¬ CStr.ofBytes (ascii "t") = nonceTag := by decide
    unfold tagOf at htagOf
    split at htagOf
    · cases htagOf
      simp [isShortNonce, hnames] at hnonce
    · cases htagOf
      simp [isShortNonce, hnames] at hnonce
    · cases htagOf
      simp [isShortNonce, hnames] at hnonce
    · next t1 t2 =>
      cases htagOf
      obtain rfl : t1 = nonceTag := by simpa [isShortNonce] using hnonce
      exact ⟨t2, hgroup⟩
    · cases htagOf
  · rintro ⟨value, hgroup⟩
    refine ⟨⟨[nonceTag, value]⟩, List.mem_filterMap.mpr ⟨_, hgroup, rfl⟩, ?_⟩
    simp [isShortNonce]

/-- A nonce tag with two elements is found and has not three; otherwise a tag of three is added. -/
theorem nonce_asserted_iff (ev : NostrEvent) (difficulty : Int32) :
    NonceAsserted ev difficulty ↔ ∀ tag ∈ ev.tags, isShortNonce tag = false := by
  constructor
  · intro h
    by_contra hshort
    push Not at hshort
    obtain ⟨tag, htag, hnonce⟩ := hshort
    obtain ⟨index, found, hensure, hfound, htwo⟩ :=
      ensure_nonce_tag_short difficulty htag (by simpa using hnonce)
    obtain ⟨tag', htag', hthree, -⟩ := h ev index hensure
    obtain rfl := Option.some.inj (hfound.symm.trans htag')
    omega
  · intro h tagged index hensure
    rw [ensure_nonce_tag_fresh difficulty h] at hensure
    split_ifs at hensure
    obtain ⟨rfl, rfl⟩ := Prod.mk.inj (Option.some.inj hensure)
    exact ⟨_, List.getElem?_concat_length, rfl, rfl⟩

/-- `mine_event` aborts exactly where the assertions about the tag do not hold. -/
theorem mine_event_aborts_iff (sha256 : Bytes → Block 32) (fuel : Nat) (ev : NostrEvent)
    (difficulty : Int32) :
    mineEvent sha256 fuel ev difficulty = .error .aborted ↔ ¬ NonceAsserted ev difficulty := by
  rw [nonce_asserted_iff, mineEvent]
  by_cases hfresh : ∀ tag ∈ ev.tags, isShortNonce tag = false
  · refine iff_of_false (fun h => ?_) (not_not.mpr hfresh)
    by_cases hroom : ev.tags.length < maxTags
    · rw [mine_with_eq _ fuel difficulty ⟨hfresh, hroom⟩] at h
      split at h
      · cases h
      · next mined hloop =>
        rw [h] at hloop
        rcases mine_loop_error hloop with hstop | hstop <;> cases hstop
    · rw [mineWith, ensure_nonce_tag_fresh difficulty hfresh, if_neg hroom] at h
      cases h
  · exact iff_of_true (mine_with_short _ fuel difficulty hfresh) hfresh

/-- The assertions of `mine_event` hold of an event that a command line asks for, whatever the
difficulty is, exactly if the command line has no option `--tag nonce`. -/
theorem mine_event_asserts_iff (einval : Bool) (errno : Nat) (argv : List CStr) (ev : NostrEvent)
    (hev : Mineable einval errno argv ev) (difficulty : Int32) :
    (NonceAsserted ev difficulty ∧
        ∀ sha256 fuel, mineEvent sha256 fuel ev difficulty ≠ .error .aborted) ↔
      ∀ value, (Opt.tag, [nonceTag, value]) ∉ groups argv := by
  obtain ⟨added, htags, hadded⟩ := hev.tags
  have hiff : NonceAsserted ev difficulty ↔
      ∀ value, (Opt.tag, [nonceTag, value]) ∉ groups argv := by
    rw [nonce_asserted_iff, htags, List.forall_mem_append, and_iff_left hadded,
      ← not_exists, ← requested_short_nonce]
    simp
  refine Iff.trans ⟨fun h => h.1, fun h => ⟨h, fun sha256 fuel habort => ?_⟩⟩ hiff
  exact (mine_event_aborts_iff sha256 fuel ev difficulty).mp habort h

/-- A difficulty and a tag of the user's. -/
def tagArgv (name : String) : List CStr :=
  [arg "--pow", arg "1", arg "--tag", arg name, arg "5"]

/-- The event these arguments ask for. -/
theorem mineable_tag_argv (name : String) :
    ∃ ev, Mineable false 0 (tagArgv name) ev := by
  have hpow : readOption (arg "--pow") = some .pow := rfl
  have htag : readOption (arg "--tag") = some .tag := rfl
  have hnumber : parseOperand false ⟨Args.zero, NostrEvent.zero, false, 0⟩ .pow (arg "1") =
      .ok ⟨{ Args.zero with
        difficulty := 1, flags := { Args.zero.flags with difficulty := true } },
        NostrEvent.zero, false, 0⟩ := rfl
  have hparses : ∃ st, Parses false (tagArgv name) ⟨Args.zero, NostrEvent.zero, false, 0⟩ st :=
    ⟨_, .operand hpow rfl hnumber (.tag htag rfl (.done _))⟩
  obtain ⟨mid, hparses⟩ := hparses
  obtain ⟨st, hparse⟩ : ∃ st, parseArgs false 0 (tagArgv name) = .ok st := by
    rw [parseArgs, parse_loop_of_parses hparses]
    exact ⟨_, rfl⟩
  exact ⟨_, .parsed 0 samplePubkey hparse⟩

/-- A tag with another name does no harm. -/
theorem mine_event_asserts_iff_subject :
    ∃ ev, Mineable false 0 (tagArgv "subject") ev ∧ NonceAsserted ev 1 := by
  obtain ⟨ev, hev⟩ := mineable_tag_argv "subject"
  refine ⟨ev, hev, ((mine_event_asserts_iff _ _ _ ev hev 1).mpr fun value hgroup => ?_).1⟩
  have hgroups : groups (tagArgv "subject") =
      [(.pow, [arg "1"]), (.tag, [arg "subject", arg "5"])] := rfl
  have hname : ¬ nonceTag = arg "subject" := by decide
  rw [hgroups] at hgroup
  simp [hname] at hgroup

/-- A tag named `nonce` fails the assertion. -/
theorem mine_event_aborts_on_nonce :
    ¬ ∀ (einval : Bool) (errno : Nat) (argv : List CStr) (ev : NostrEvent),
      Mineable einval errno argv ev → ∀ difficulty : Int32, NonceAsserted ev difficulty ∧
        ∀ sha256 fuel, mineEvent sha256 fuel ev difficulty ≠ .error .aborted := by
  intro h
  obtain ⟨ev, hev⟩ := mineable_tag_argv "nonce"
  obtain ⟨added, htags, -⟩ := hev.tags
  have hnonce : ∃ tag ∈ ev.tags, isShortNonce tag = true := by
    refine ⟨⟨[nonceTag, arg "5"]⟩, ?_, by simp [isShortNonce]⟩
    rw [htags]
    exact List.mem_append_left _ (List.mem_singleton.mpr rfl)
  obtain ⟨tag, htag, hshort⟩ := hnonce
  have hasserted := (nonce_asserted_iff ev 1).mp (h false 0 (tagArgv "nonce") ev hev 1).1 tag htag
  rw [hshort] at hasserted
  cases hasserted

end Gnostr
