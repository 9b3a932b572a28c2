import Gnostr.Cli.Limits

/-!
# The status of the drivers

Every step of `main` and of `make_message` that fails has a status of its own, except for one: a
message that cannot be encrypted ends with 0. A status of 0 says too much in a few more cases, in
which no step fails: when a string was cut, when there was no content, or when a buffer of
`make_message` was too small.

`truthful_bind` splits the question along the steps of a driver, and `zero_status_iff` puts the
answers together: the arguments and the answers of the libraries under which the status is to be
trusted.
-/

namespace Gnostr

open Wire

/-! ## What a status says -/

/-- The status a run that failed returns, if it returns. -/
def Exit.status : Exit → Option Nat
  | failed code _ _ => some code
  | _ => none

/-- The status a run returns, if it returns. -/
def status : Except Exit Output → Option Nat
  | .ok _ => some 0
  | .error stop => stop.status

/-- The texts of an event with all of its strings whole. -/
def completeTexts (ev : NostrEvent) : Printed :=
  { printed ev with tags := tagsTextBy CStr.bytes ev, content := quoted ev.content.bytes }

/-- The complete line of a signed event was written: there was a content, and nothing is missing
from the texts. -/
structure Written (c : Crypto) (null : Bool) (o : Output) : Prop where
  given : null = false
  line : o.out = (completeTexts o.ev).line o.envelope
  signed : ∃ (key : Key) (aux : Block 32), o.ev.pubkey = key.pubkey ∧
    c.schnorrsigSign32 o.ev.id key.pair aux = some o.ev.sig

/-- A run stays within the defined behaviour, and its status is 0 exactly when the line was
written. -/
structure Truthful (written : Output → Prop) (run : Except Exit Output) : Prop where
  defined : run ≠ .error .undefined
  zero_iff : status run = some 0 ↔ ∃ o, run = .ok o ∧ written o

/-- A failure that can be told from a success. -/
structure Exit.Honest (stop : Exit) : Prop where
  defined : stop ≠ .undefined
  nonzero : stop.status ≠ some 0

section

variable {written : Output → Prop}

/-- A run that succeeds has to deliver. -/
theorem truthful_ok {o : Output} : Truthful written (.ok o) ↔ written o := by
  constructor
  · intro h
    obtain ⟨o', ho, hwritten⟩ := h.zero_iff.mp rfl
    cases ho
    exact hwritten
  · exact fun h => ⟨nofun, iff_of_true rfl ⟨o, rfl, h⟩⟩

/-- A run that stops has to say that it failed. -/
theorem truthful_error {stop : Exit} : Truthful written (.error stop) ↔ stop.Honest := by
  constructor
  · intro h
    refine ⟨fun hstop => h.defined (congrArg Except.error hstop), fun hzero => ?_⟩
    obtain ⟨o, ho, -⟩ := h.zero_iff.mp hzero
    cases ho
  · intro h
    refine ⟨fun hstop => h.defined (Except.error.inj hstop), iff_of_false h.nonzero ?_⟩
    rintro ⟨o, ho, -⟩
    cases ho

/-- A step fails honestly or hands the question on. -/
theorem truthful_bind {α : Type} {x : Except Exit α} {f : α → Except Exit Output} :
    Truthful written (x >>= f) ↔
      (∀ stop, x = .error stop → stop.Honest) ∧ ∀ a, x = .ok a → Truthful written (f a) := by
  cases x with
  | error stop =>
      rw [show (Except.error stop >>= f) = .error stop from rfl, truthful_error]
      constructor
      · intro h
        refine ⟨fun stop' hstop => ?_, nofun⟩
        cases hstop
        exact h
      · exact fun h => h.1 stop rfl
  | ok a =>
      rw [show (Except.ok a >>= f) = f a from rfl]
      constructor
      · intro h
        refine ⟨nofun, fun a' ha => ?_⟩
        cases ha
        exact h
      · exact fun h => h.2 a rfl

end

/-! ## The key -/

/-- The key of a run: the one that was given, or a new one. -/
inductive KeyOf (host : Host) (fuel : Nat) (args : Args) : Key → Prop where
  | given {sec : CStr} {key : Key} (hsec : args.sec = some sec)
      (hkey : decodeKey host.crypto sec = some key) : KeyOf host fuel args key
  | made {key : Key} (hsec : args.sec = none)
      (hkey : generateKey host.crypto host.random
        (if args.flags.difficulty ∧ args.flags.minePubkey then some args.difficulty else none)
        fuel = .done (some key)) : KeyOf host fuel args key

/-- The key is the one given, or the one that was made. -/
theorem main_key_iff {host : Host} {fuel : Nat} {args : Args} {key : Key} :
    mainKey host fuel args = .ok key ↔ KeyOf host fuel args key := by
  constructor
  · intro h
    unfold mainKey at h
    split at h
    · next sec hsec =>
      split at h
      · next decoded hdecode =>
        cases h
        exact .given hsec hdecode
      · cases h
    · next hsec =>
      simp only at h
      split at h
      · cases h
      · cases h
      · next made hmade =>
        cases h
        exact .made hsec hmade
  · intro h
    cases h with
    | given hsec hkey => simp only [mainKey, hsec, hkey]
    | made hsec hkey => simp only [mainKey, hsec, hkey]

/-- A run without a key ends with 8 or 4, or not at all. -/
theorem main_key_honest {host : Host} {fuel : Nat} {args : Args} {stop : Exit}
    (h : mainKey host fuel args = .error stop) : stop.Honest := by
  unfold mainKey at h
  simp only at h
  split at h <;> split at h <;> cases h <;> exact ⟨nofun, by simp [Exit.status]⟩

/-! ## The message -/

/-- The event that is to get an id: the note, or the message made of it. -/
inductive Drafted (host : Host) (args : Args) (key : Key) (ev : NostrEvent) :
    NostrEvent → Prop where
  | note (hencrypt : args.flags.encrypt = false) :
      Drafted host args key ev { ev with pubkey := key.pubkey }
  | message {secret : Block 32} {iv : Block 16} (hencrypt : args.flags.encrypt = true)
      (hsecret : sharedSecret host.crypto key args.encryptTo = some secret)
      (hiv : host.random.iv = some iv) :
      Drafted host args key ev { ev with
        pubkey := key.pubkey
        content := dmContent (aesCbcEncryptBuffer host.aes secret iv (pad 16 ev.content.bytes)) iv.1
        kind := if args.flags.kind then args.kind else 4
        tags := ev.tags ++ [recipientTag args.encryptTo] }

/-- A message is told from a failure exactly when it is encrypted and there is room for its
recipient. -/
theorem main_dm_honest_iff {host : Host} {args : Args} {key : Key} {ev : NostrEvent} :
    (∀ stop, mainDm host args key ev = .error stop → stop.Honest) ↔
      (args.flags.encrypt = true →
        DmEncrypts host.toEnv key ev args.encryptTo ∧ ev.tags.length < maxTags) := by
  unfold mainDm
  by_cases hencrypt : args.flags.encrypt = true
  · rw [if_pos hencrypt]
    constructor
    · intro h _
      -- a failed message is reported with 0
      have hfailed : ∀ error left, makeEncryptedDm host.toEnv key ev args.encryptTo
          (if args.flags.kind then args.kind else 4) ≠ .error (.failed error left) := by
        intro error left hrun
        simp only [hrun] at h
        exact (h _ rfl).nonzero rfl
      rcases make_encrypted_dm_cases host.toEnv key ev args.encryptTo with
        hrefused | hencrypts | hundefined
      · obtain ⟨error, hrun⟩ := make_encrypted_dm_refused _ hrefused
        exact absurd hrun (hfailed error ev)
      · refine ⟨hencrypts, ?_⟩
        by_contra hfull
        obtain ⟨left, hrun, -⟩ := make_encrypted_dm_full _ hencrypts (Nat.not_lt.mp hfull)
        exact hfailed _ left hrun
      · simp only [hundefined] at h
        exact absurd rfl (h _ rfl).defined
    · intro h stop hstop
      obtain ⟨hencrypts, hroom⟩ := h hencrypt
      obtain ⟨made, hrun⟩ := make_encrypted_dm_made
        (if args.flags.kind then args.kind else 4) hencrypts hroom
      simp only [hrun] at hstop
      cases hstop
  · rw [if_neg hencrypt]
    exact iff_of_true nofun fun h => absurd h hencrypt

/-- The draft of a run in which nothing is in the way of the message. -/
theorem main_dm_iff {host : Host} {args : Args} {key : Key} {ev draft : NostrEvent}
    (h : args.flags.encrypt = true →
      DmEncrypts host.toEnv key ev args.encryptTo ∧ ev.tags.length < maxTags) :
    (∃ ev', mainDm host args key ev = .ok ev' ∧ draft = { ev' with pubkey := key.pubkey }) ↔
      Drafted host args key ev draft := by
  by_cases hencrypt : args.flags.encrypt = true
  · obtain ⟨hencrypts, hroom⟩ := h hencrypt
    obtain ⟨made, hrun⟩ := make_encrypted_dm_made
      (if args.flags.kind then args.kind else 4) hencrypts hroom
    obtain ⟨secret, iv, hsecret, hiv, hmade⟩ := make_encrypted_dm_event hrun
    have hok : mainDm host args key ev = .ok made := by
      rw [mainDm, if_pos hencrypt]
      simp only [hrun]
    constructor
    · rintro ⟨ev', hev', rfl⟩
      rw [hok] at hev'
      cases hev'
      rw [hmade]
      exact .message hencrypt hsecret hiv
    · intro hdraft
      refine ⟨made, hok, ?_⟩
      cases hdraft with
      | note hno => rw [hno] at hencrypt; cases hencrypt
      | message _ hsecret' hiv' =>
          rw [hmade, Option.some.inj (hsecret'.symm.trans hsecret),
            Option.some.inj (hiv'.symm.trans hiv)]
          rfl
  · have hok : mainDm host args key ev = .ok ev := if_neg hencrypt
    constructor
    · rintro ⟨ev', hev', rfl⟩
      rw [hok] at hev'
      cases hev'
      exact .note (by simpa using hencrypt)
    · intro hdraft
      cases hdraft with
      | note hno => exact ⟨ev, hok, rfl⟩
      | message hyes => exact absurd hyes hencrypt

/-! ## The id and the signature -/

/-- The work that is asked of the id. -/
def Args.idWork (args : Args) : Option Int32 :=
  if args.flags.difficulty ∧ ¬ args.flags.minePubkey then some args.difficulty else none

/-- A text is made for the id of a draft: at once, or in the first round of the miner. -/
def Serialised (fuel : Nat) (args : Args) (draft : NostrEvent) : Prop :=
  args.idWork = none ∨ fuel ≠ 0 ∧ draft.TakesNonce

/-- The event with the id of a draft: the hash of its text, or with a nonce tag the first hash that
has the work. -/
inductive Identified (sha256 : Bytes → Block 32) (null : Bool) (fuel : Nat) (draft : NostrEvent) :
    Option Int32 → NostrEvent → Prop where
  | plain (hroom : (Nostri.hashedText null draft).length < bufferSize) :
      Identified sha256 null fuel draft none
        { draft with id := sha256 (Nostri.hashedText null draft) }
  | mined {difficulty : Int32} {n : Nat} (htakes : draft.TakesNonce) (hn : n < fuel)
      (hfirst : FirstWork sha256
        (fun m => Nostri.hashedText null (draft.nonced difficulty (.ofNat m))) difficulty n) :
      Identified sha256 null fuel draft (some difficulty)
        { draft.nonced difficulty (.ofNat n) with
          id := sha256 (Nostri.hashedText null (draft.nonced difficulty (.ofNat n))) }

/-- The signed event of a draft. -/
inductive Sealed (host : Host) (null : Bool) (fuel : Nat) (args : Args) (key : Key)
    (draft : NostrEvent) : NostrEvent → Prop where
  | mk {named : NostrEvent} {aux : Block 32} {sig : Block 64}
      (hid : Identified host.crypto.sha256 null fuel draft args.idWork named)
      (haux : host.random.aux = some aux)
      (hsig : host.crypto.schnorrsigSign32 named.id key.pair aux = some sig) :
      Sealed host null fuel args key draft { named with sig := sig }

section

variable {host : Host} {fuel : Nat} {args : Args} {ev ev' : NostrEvent}

/-- The id of `main` is that of `make_message` with a content. -/
theorem main_id_eq (content : CStr) :
    mainId host fuel args ev =
      Nostri.messageId host fuel { args with content := some content } ev :=
  rfl

/-- The id is the one a draft has to get, if its tags can be serialised. -/
theorem message_id_iff :
    Nostri.messageId host fuel args ev = .ok ev' ↔
      ev.TagsDefined ∧
        Identified host.crypto.sha256 args.content.isNone fuel ev args.idWork ev' := by
  have hgenerates := Nostri.generates_event_id host.crypto.sha256 args.content.isNone
  unfold Nostri.messageId Args.idWork
  by_cases hmine : args.flags.difficulty = true ∧ ¬ args.flags.minePubkey = true
  · rw [if_pos hmine, if_pos hmine, Nostri.mineEvent]
    constructor
    · intro h
      have htags := tags_defined_of_mined hgenerates h
      obtain ⟨htakes, n, hn, hfirst, rfl⟩ := (mine_with_iff hgenerates htags).mp h
      exact ⟨htags, .mined htakes hn hfirst⟩
    · rintro ⟨htags, h⟩
      cases h with
      | mined htakes hn hfirst =>
          exact (mine_with_iff hgenerates htags).mpr ⟨htakes, _, hn, hfirst, rfl⟩
  · rw [if_neg hmine, if_neg hmine, hgenerates.run]
    constructor
    · intro h
      split_ifs at h with htags hroom
      cases h
      exact ⟨htags, .plain hroom⟩
    · rintro ⟨htags, h⟩
      cases h with
      | plain hroom => rw [if_pos htags, if_pos hroom]

/-- A missing id is told from a success unless the tags cannot be serialised. -/
theorem message_id_honest_iff :
    (∀ stop, Nostri.messageId host fuel args ev = .error stop → stop.Honest) ↔
      (Serialised fuel args ev → ev.TagsDefined) := by
  have hgenerates := Nostri.generates_event_id host.crypto.sha256 args.content.isNone
  unfold Nostri.messageId Serialised Args.idWork
  by_cases hmine : args.flags.difficulty = true ∧ ¬ args.flags.minePubkey = true
  · rw [if_pos hmine, if_pos hmine, Nostri.mineEvent]
    by_cases htakes : ev.TakesNonce
    · by_cases htags : ev.TagsDefined
      · refine iff_of_true (fun stop hstop => ?_) fun _ => htags
        rw [mine_with_eq _ fuel args.difficulty htakes] at hstop
        split at hstop
        · cases hstop
          exact ⟨nofun, nofun⟩
        · next mined hloop =>
          rw [hstop] at hloop
          have htagged : NostrEvent.TagsDefined { ev with tags := ev.tags ++
              [⟨[nonceTag, CStr.ofBytes (ascii "0"), targetText args.difficulty]⟩] } := htags
          rw [mine_loop_defined hgenerates htagged hloop]
          exact ⟨nofun, by simp [Exit.status, miningFailed]⟩
      · rw [mine_with_undefined hgenerates htakes htags]
        by_cases hfuel : fuel = 0
        · rw [if_pos hfuel]
          refine iff_of_true (fun stop hstop => ?_) ?_
          · cases hstop
            exact ⟨nofun, nofun⟩
          · rintro (hnone | ⟨hfuel', -⟩)
            · cases hnone
            · exact absurd hfuel hfuel'
        · rw [if_neg hfuel]
          refine iff_of_false (fun h => (h _ rfl).defined rfl) fun h => ?_
          exact htags (h (.inr ⟨hfuel, htakes⟩))
    · refine iff_of_true (fun stop hstop => ?_) ?_
      · rcases mine_with_refused (Nostri.generateEventId host.crypto.sha256 args.content.isNone)
          fuel args.difficulty htakes with hrefused | hrefused <;>
          rw [hrefused] at hstop <;> cases hstop <;>
          exact ⟨nofun, by simp [Exit.status, miningFailed]⟩
      · rintro (hnone | ⟨-, htakes'⟩)
        · cases hnone
        · exact absurd htakes' htakes
  · rw [if_neg hmine, if_neg hmine, hgenerates.run]
    by_cases htags : ev.TagsDefined
    · refine iff_of_true (fun stop hstop => ?_) fun _ => htags
      rw [if_pos htags] at hstop
      split_ifs at hstop
      cases hstop
      exact ⟨nofun, by simp [Exit.status]⟩
    · rw [if_neg htags]
      exact iff_of_false (fun h => (h _ rfl).defined rfl) fun h => htags (h (.inl rfl))

/-- An event with an id was serialised. -/
theorem Identified.serialised {sha256 : Bytes → Block 32} {null : Bool}
    (h : Identified sha256 null fuel ev args.idWork ev') : Serialised fuel args ev := by
  unfold Serialised
  generalize args.idWork = work at h
  cases h with
  | plain => exact .inl rfl
  | mined htakes hn => exact .inr ⟨by omega, htakes⟩

/-- The text that was hashed had room, and the event was given nothing but its id. -/
theorem Identified.room {sha256 : Bytes → Block 32} {null : Bool} {work : Option Int32}
    (h : Identified sha256 null fuel ev work ev') :
    (Nostri.hashedText null ev').length < bufferSize ∧ ev'.pubkey = ev.pubkey ∧
      ev'.explicitTags = ev.explicitTags := by
  cases h with
  | plain hroom => exact ⟨hroom, rfl, rfl⟩
  | mined htakes hn hfirst => exact ⟨hfirst.room _ (Nat.le_refl _), rfl, rfl⟩

/-- An event is signed with a signature of its hash. -/
theorem main_sign_iff {key : Key} :
    mainSign host key ev = .ok ev' ↔
      ∃ aux sig, host.random.aux = some aux ∧
        host.crypto.schnorrsigSign32 ev.id key.pair aux = some sig ∧
        ev' = { ev with sig := sig } := by
  unfold mainSign
  constructor
  · intro h
    split at h
    · next signed hsign =>
      cases h
      exact sign_event_some hsign
    · cases h
  · rintro ⟨aux, sig, haux, hsig, rfl⟩
    rw [sign_event_eq ev haux hsig]

/-- A signature that cannot be made is reported. -/
theorem main_sign_honest {key : Key} {stop : Exit} (h : mainSign host key ev = .error stop) :
    stop.Honest := by
  unfold mainSign at h
  split at h
  · cases h
  · cases h
    exact ⟨nofun, by simp [Exit.status]⟩

end

/-! ## The line -/

/-- The line is as long as its tags, its content and what is around them. -/
theorem Printed.length_line (t : Printed) (envelope : Bool) :
    (t.line envelope).length = t.tags.length + t.content.length +
      (({ t with tags := [], content := [] } : Printed).line envelope).length := by
  simp only [Printed.line, Printed.front, Printed.back, List.length_append, List.length_nil]
  omega

/-- The line is complete exactly when no string is too long for an `int`. -/
theorem line_complete_iff (ev : NostrEvent) (envelope : Bool) :
    (printed ev).line envelope = (completeTexts ev).line envelope ↔ ev.Short := by
  constructor
  · intro hline
    by_contra hshort
    have hlen := congrArg List.length hline
    rw [Printed.length_line, Printed.length_line (completeTexts ev)] at hlen
    -- apart from the tags and the content the two lines are the same
    have hrest : ({ printed ev with tags := [], content := [] } : Printed) =
        { completeTexts ev with tags := [], content := [] } := rfl
    rw [hrest] at hlen
    have hlen : (tagsText ev).length + (quoted ev.content.counted).length =
        (tagsTextBy CStr.bytes ev).length + (quoted ev.content.bytes).length :=
      Nat.add_right_cancel hlen
    have htags := length_tags_text_le ev
    have hcontent := length_quoted_le ev.content
    unfold NostrEvent.Short at hshort
    push Not at hshort
    obtain ⟨s, hs, hlong⟩ := hshort
    rcases List.mem_cons.mp hs with rfl | hs
    · have hlt := length_quoted_lt (Nat.not_lt.mpr hlong)
      omega
    · have hlt := length_tags_text_lt hs (Nat.not_lt.mpr hlong)
      omega
  · intro hshort
    obtain ⟨htags, hcontent⟩ := printed_of_short hshort
    rw [completeTexts, ← htags, ← hcontent]

section

variable {host : Host} {null : Bool} {fuel : Nat} {args : Args} {key : Key}
  {draft signed : NostrEvent}

/-- What is known of a signed event: it has room in the buffers of the cursors. -/
theorem Sealed.room (h : Sealed host null fuel args key draft signed) :
    (tagsText signed).length < bufferSize ∧
      (Nostri.contentText null signed).length < bufferSize := by
  cases h with
  | mk hid => exact parts_of_text_fit hid.room.1

/-- Sealing an event keeps its tags readable. -/
theorem Sealed.tags_defined (h : Sealed host null fuel args key draft signed)
    (htags : draft.TagsDefined) : signed.TagsDefined := by
  cases h with
  | mk hid =>
      intro tags hmem
      refine htags tags ?_
      rw [← hid.room.2.2]
      exact hmem

/-- The event a driver prints was signed with the key of the run. -/
theorem Sealed.has_signature (h : Sealed host null fuel args key draft signed)
    (hkey : draft.pubkey = key.pubkey) :
    ∃ (key : Key) (aux : Block 32), signed.pubkey = key.pubkey ∧
      host.crypto.schnorrsigSign32 signed.id key.pair aux = some signed.sig := by
  cases h with
  | mk hid haux hsig => exact ⟨key, _, hid.room.2.1.trans hkey, hsig⟩

/-- `main` prints a signed event, and the line is complete exactly when no string was cut. -/
theorem main_print_truthful_iff (h : Sealed host false fuel args key draft signed)
    (htags : draft.TagsDefined) (hkey : draft.pubkey = key.pubkey) :
    Truthful (Written host.crypto false) (mainPrint args signed) ↔ signed.Short := by
  obtain ⟨hfit, hcontent⟩ := h.room
  have hprint : mainPrint args signed = .ok ⟨signed, args.flags.envelope,
      (printed signed).line args.flags.envelope⟩ := by
    rw [mainPrint, print_event_eq signed _ (h.tags_defined htags) hfit hcontent]
  rw [hprint, truthful_ok, ← line_complete_iff signed args.flags.envelope]
  exact ⟨fun hwritten => hwritten.line, fun hline => ⟨rfl, hline, h.has_signature hkey⟩⟩

/-- The line of a signed event stays within the buffers of `make_message`, the last of which is
its caller's. -/
structure Nostri.LineFits (null : Bool) (room : Nat) (ev : NostrEvent) : Prop where
  tags : (tagsText ev).length ≤ 1014
  content : (Nostri.contentText null ev).length ≤ 1011
  line : ((Nostri.printed null ev).line true).length < room

/-- `make_message` writes the line of a signed event if its pieces fit, and the line is complete
exactly when there is a content and no string was cut. -/
theorem message_print_truthful_iff {room : Nat} (h : Sealed host null fuel args key draft signed)
    (hnull : null = args.content.isNone) (htags : draft.TagsDefined)
    (hkey : draft.pubkey = key.pubkey) :
    Truthful (fun o => o.envelope = true ∧ Written host.crypto null o)
        (Nostri.messagePrint args signed room) ↔
      null = false ∧ signed.Short ∧ Nostri.LineFits null room signed := by
  obtain ⟨hfit, hcontent⟩ := h.room
  have hprint := Nostri.print_event_run (h.tags_defined htags) hfit hcontent room
  have hfits : Nostri.Fits (Nostri.printed null signed) ∧
      ((Nostri.printed null signed).line true).length < room ↔
        Nostri.LineFits null room signed := by
    rw [Nostri.fits_iff]
    exact ⟨fun h => ⟨h.1.1, h.1.2, h.2⟩, fun h => ⟨⟨h.tags, h.content⟩, h.line⟩⟩
  unfold Nostri.messagePrint
  rw [← hnull, hprint]
  by_cases hline : Nostri.LineFits null room signed
  · rw [if_pos (hfits.mpr hline)]
    show Truthful _ (.ok _) ↔ _
    rw [truthful_ok]
    constructor
    · rintro ⟨-, hwritten⟩
      obtain rfl := hwritten.given
      exact ⟨rfl, (line_complete_iff signed true).mp hwritten.line, hline⟩
    · rintro ⟨rfl, hshort, -⟩
      exact ⟨rfl, rfl, (line_complete_iff signed true).mpr hshort, h.has_signature hkey⟩
  · rw [if_neg fun h => hline (hfits.mp h)]
    show Truthful _ (.error .undefined) ↔ _
    rw [truthful_error]
    exact iff_of_false (fun h => h.defined rfl) fun h => hline h.2.2

end

/-! ## The drivers -/

/-- What has to hold for the status of a driver to be trusted, given an event made from its
arguments: a message that is asked for can be encrypted and addressed, tags that are serialised
have no negative length, and an event that is signed has a content, has no string that is too long
for an `int`, and can be printed. -/
structure Reliable (host : Host) (fuel : Nat) (args : Args) (ev : NostrEvent) (null : Bool)
    (prints : NostrEvent → Prop) : Prop where
  message : ∀ key, KeyOf host fuel args key → args.flags.encrypt = true →
    null = false ∧ DmEncrypts host.toEnv key ev args.encryptTo ∧ ev.tags.length < maxTags
  tags : ∀ key draft, KeyOf host fuel args key → Drafted host args key ev draft →
    Serialised fuel args draft → ev.TagsDefined
  line : ∀ key draft signed, KeyOf host fuel args key → Drafted host args key ev draft →
    Sealed host null fuel args key draft signed → null = false ∧ signed.Short ∧ prints signed

section

variable {host : Host} {fuel : Nat} {args : Args} {ev draft : NostrEvent} {key : Key}

/-- Drafting keeps them as they are. -/
theorem Drafted.tags_defined (h : Drafted host args key ev draft) :
    draft.TagsDefined ↔ ev.TagsDefined := by
  cases h <;> rfl

/-- A draft is by the key. -/
theorem Drafted.pubkey (h : Drafted host args key ev draft) : draft.pubkey = key.pubkey := by
  cases h <;> rfl

end

/-- The steps behind the key are told from a success exactly under these conditions, whatever the
last step is, if the question about it comes down to the strings and the buffers. -/
theorem truthful_rest_iff {host : Host} {fuel : Nat} {args : Args} {ev : NostrEvent} {key : Key}
    {null : Bool} {dm : Except Exit NostrEvent} {id : NostrEvent → Except Exit NostrEvent}
    {print : NostrEvent → Except Exit Output} {written : Output → Prop} {prints : NostrEvent → Prop}
    (hdm : (∀ stop, dm = .error stop → stop.Honest) ↔
      (args.flags.encrypt = true →
        null = false ∧ DmEncrypts host.toEnv key ev args.encryptTo ∧ ev.tags.length < maxTags))
    (hdraft : (args.flags.encrypt = true →
        null = false ∧ DmEncrypts host.toEnv key ev args.encryptTo ∧ ev.tags.length < maxTags) →
      ∀ draft, (∃ ev', dm = .ok ev' ∧ draft = { ev' with pubkey := key.pubkey }) ↔
        Drafted host args key ev draft)
    (hid : ∀ draft, (∀ stop, id draft = .error stop → stop.Honest) ↔
      (Serialised fuel args draft → draft.TagsDefined))
    (hnamed : ∀ draft named, id draft = .ok named ↔ draft.TagsDefined ∧
      Identified host.crypto.sha256 null fuel draft args.idWork named)
    (hprint : ∀ draft signed, Sealed host null fuel args key draft signed → draft.TagsDefined →
      draft.pubkey = key.pubkey →
      (Truthful written (print signed) ↔ null = false ∧ signed.Short ∧ prints signed)) :
    Truthful written (do
      let ev ← dm
      let ev ← id { ev with pubkey := key.pubkey }
      let ev ← mainSign host key ev
      print ev) ↔
      (args.flags.encrypt = true →
        null = false ∧ DmEncrypts host.toEnv key ev args.encryptTo ∧ ev.tags.length < maxTags) ∧
      (∀ draft, Drafted host args key ev draft → Serialised fuel args draft → ev.TagsDefined) ∧
      ∀ draft signed, Drafted host args key ev draft →
        Sealed host null fuel args key draft signed →
        null = false ∧ signed.Short ∧ prints signed := by
  rw [truthful_bind, hdm]
  refine and_congr_right fun hmessage => ?_
  have hdrafts := hdraft hmessage
  constructor
  · intro h
    have hserialised : ∀ draft, Drafted host args key ev draft → Serialised fuel args draft →
        ev.TagsDefined := by
      intro draft hdrafted hserialised
      obtain ⟨ev', hev', rfl⟩ := (hdrafts draft).mpr hdrafted
      exact hdrafted.tags_defined.mp
        ((hid _).mp (truthful_bind.mp (h ev' hev')).1 hserialised)
    refine ⟨hserialised, fun draft signed hdrafted hsealed => ?_⟩
    cases hsealed with
    | mk hidentified haux hsig =>
        have htags := hdrafted.tags_defined.mpr
          (hserialised draft hdrafted hidentified.serialised)
        obtain ⟨ev', hev', hdraftEq⟩ := (hdrafts draft).mpr hdrafted
        have hrest := (truthful_bind.mp (h ev' hev')).2 _
          (hdraftEq ▸ (hnamed draft _).mpr ⟨htags, hidentified⟩)
        have hlast := (truthful_bind.mp hrest).2 _ (main_sign_iff.mpr ⟨_, _, haux, hsig, rfl⟩)
        exact (hprint draft _ (.mk hidentified haux hsig) htags hdrafted.pubkey).mp hlast
  · rintro ⟨hserialised, hline⟩ ev' hev'
    have hdrafted := (hdrafts _).mp ⟨ev', hev', rfl⟩
    rw [truthful_bind, hid]
    refine ⟨fun h => hdrafted.tags_defined.mpr (hserialised _ hdrafted h), fun named hok => ?_⟩
    rw [truthful_bind]
    refine ⟨fun stop => main_sign_honest, fun signed hsign => ?_⟩
    obtain ⟨aux, sig, haux, hsig, rfl⟩ := main_sign_iff.mp hsign
    obtain ⟨htags, hidentified⟩ := (hnamed _ _).mp hok
    exact (hprint _ _ (.mk hidentified haux hsig) htags rfl).mpr
      (hline _ _ hdrafted (.mk hidentified haux hsig))

/-- A content that is there is the one thing the message of `make_message` needs beyond that of
`main`. -/
theorem message_dm_honest_iff {host : Host} {args : Args} {key : Key} {ev : NostrEvent} :
    (∀ stop, Nostri.messageDm host args key ev = .error stop → stop.Honest) ↔
      (args.flags.encrypt = true → args.content.isNone = false ∧
        DmEncrypts host.toEnv key ev args.encryptTo ∧ ev.tags.length < maxTags) := by
  unfold Nostri.messageDm
  by_cases hnull : args.flags.encrypt = true ∧ args.content.isNone = true
  · rw [if_pos hnull]
    refine iff_of_false (fun h => (h _ rfl).defined rfl) fun h => ?_
    rw [hnull.2] at h
    exact absurd (h hnull.1).1 (by decide)
  · rw [if_neg hnull, main_dm_honest_iff]
    refine forall_congr' fun hencrypt => ?_
    have hcontent : args.content.isNone = false := by
      by_contra hnone
      exact hnull ⟨hencrypt, by simpa using hnone⟩
    rw [and_iff_right hcontent]

/-- The sibling program has the same key, once its context is there. -/
theorem message_key_iff {host : Host} {fuel : Nat} {args : Args} {key : Key} :
    Nostri.messageKey host fuel args = .ok key ↔
      initSecpContext host.crypto host.random = true ∧ KeyOf host fuel args key := by
  unfold Nostri.messageKey
  by_cases hinit : initSecpContext host.crypto host.random = true <;>
    simp [hinit, main_key_iff]

/-- A key it cannot have is reported. -/
theorem message_key_honest {host : Host} {fuel : Nat} {args : Args} {stop : Exit}
    (h : Nostri.messageKey host fuel args = .error stop) : stop.Honest := by
  unfold Nostri.messageKey at h
  split at h
  · cases h
    exact ⟨nofun, by simp [Exit.status]⟩
  · exact main_key_honest h

/-- The conditions for every key of a run, taken together. -/
theorem reliable_iff {host : Host} {fuel : Nat} {args : Args} {ev : NostrEvent} {null : Bool}
    {prints : NostrEvent → Prop} :
    Reliable host fuel args ev null prints ↔
      ∀ key, KeyOf host fuel args key →
        (args.flags.encrypt = true →
          null = false ∧ DmEncrypts host.toEnv key ev args.encryptTo ∧ ev.tags.length < maxTags) ∧
        (∀ draft, Drafted host args key ev draft → Serialised fuel args draft → ev.TagsDefined) ∧
        ∀ draft signed, Drafted host args key ev draft →
          Sealed host null fuel args key draft signed →
          null = false ∧ signed.Short ∧ prints signed := by
  constructor
  · intro h key hkey
    exact ⟨h.message key hkey, fun draft => h.tags key draft hkey,
      fun draft signed => h.line key draft signed hkey⟩
  · intro h
    exact ⟨fun key hkey => (h key hkey).1, fun key draft hkey => (h key hkey).2.1 draft,
      fun key draft signed hkey => (h key hkey).2.2 draft signed⟩

/-- When the status of `main` is to be trusted. -/
theorem main_truthful_iff {host : Host} (fuel : Nat) {argv : List CStr} {st : ParseState}
    (h : readArgs host argv = .ok st) :
    Truthful (Written host.crypto false) (main host fuel argv) ↔
      Reliable host fuel st.args (makeEventFromArgs host.clock st.ev st.args) false
        fun _ => True := by
  have hmain : main host fuel argv = (mainKey host fuel st.args >>= fun key => do
      let ev ← mainDm host st.args key (makeEventFromArgs host.clock st.ev st.args)
      let ev ← mainId host fuel st.args { ev with pubkey := key.pubkey }
      let ev ← mainSign host key ev
      mainPrint st.args ev) := by
    rw [main, h]
    rfl
  rw [hmain, truthful_bind, and_iff_right fun stop => main_key_honest, reliable_iff]
  refine forall_congr' fun key => ?_
  rw [main_key_iff]
  refine forall_congr' fun hkey => ?_
  refine truthful_rest_iff ?_ (fun hmessage draft => ?_) (fun draft => ?_) (fun draft named => ?_)
    fun draft signed hsealed htags hpubkey => ?_
  · rw [main_dm_honest_iff, and_iff_right rfl]
  · exact main_dm_iff fun hencrypt => (hmessage hencrypt).2
  · rw [main_id_eq (CStr.ofBytes [])]
    exact message_id_honest_iff
  · rw [main_id_eq (CStr.ofBytes [])]
    exact message_id_iff
  · rw [main_print_truthful_iff hsealed htags hpubkey]
    simp

/-- The envelope makes no difference before the line is written. -/
theorem reliable_with_envelope {host : Host} {fuel : Nat} {args : Args} {ev : NostrEvent}
    {null : Bool} {prints : NostrEvent → Prop} :
    Reliable host fuel (Nostri.withEnvelope args) ev null prints ↔
      Reliable host fuel args ev null prints := by
  have hkey : ∀ key, KeyOf host fuel (Nostri.withEnvelope args) key ↔ KeyOf host fuel args key := by
    intro key
    constructor <;> intro h <;> cases h with
    | given hsec hkey => exact .given hsec hkey
    | made hsec hkey => exact .made hsec hkey
  have hdraft : ∀ key draft, Drafted host (Nostri.withEnvelope args) key ev draft ↔
      Drafted host args key ev draft := by
    intro key draft
    constructor <;> intro h <;> cases h with
    | note hencrypt => exact .note hencrypt
    | message hencrypt hsecret hiv => exact .message hencrypt hsecret hiv
  have hsealed : ∀ key draft signed,
      Sealed host null fuel (Nostri.withEnvelope args) key draft signed ↔
        Sealed host null fuel args key draft signed := by
    intro key draft signed
    constructor <;> intro h <;> cases h with
    | mk hid haux hsig => exact .mk hid haux hsig
  simp only [reliable_iff, hkey, hdraft, hsealed]
  rfl

/-- When the status of `make_message` is to be trusted. -/
theorem make_message_truthful_iff (host : Host) (fuel : Nat) (args : Args) (ev : NostrEvent)
    (room : Nat) :
    Truthful (fun o => o.envelope = true ∧ Written host.crypto args.content.isNone o)
        (Nostri.makeMessage host fuel args ev room) ↔
      (initSecpContext host.crypto host.random = true →
        Reliable host fuel args (makeEventFromArgs host.clock ev args) args.content.isNone
          (Nostri.LineFits args.content.isNone room)) := by
  have hmake : Nostri.makeMessage host fuel args ev room =
      (Nostri.messageKey host fuel (Nostri.withEnvelope args) >>= fun key => do
        let ev ← Nostri.messageDm host (Nostri.withEnvelope args) key
          (makeEventFromArgs host.clock ev (Nostri.withEnvelope args))
        let ev ← Nostri.messageId host fuel (Nostri.withEnvelope args)
          { ev with pubkey := key.pubkey }
        let ev ← mainSign host key ev
        Nostri.messagePrint (Nostri.withEnvelope args) ev room) := rfl
  rw [hmake, truthful_bind, and_iff_right fun stop => message_key_honest,
    ← reliable_with_envelope, reliable_iff, forall_comm]
  refine forall_congr' fun key => ?_
  rw [message_key_iff, and_imp]
  refine forall_congr' fun hinit => forall_congr' fun hkey => ?_
  refine truthful_rest_iff message_dm_honest_iff (fun hmessage draft => ?_)
    (fun draft => message_id_honest_iff) (fun draft named => message_id_iff)
    fun draft signed hsealed htags hpubkey =>
      message_print_truthful_iff hsealed rfl htags hpubkey
  have hdm : Nostri.messageDm host (Nostri.withEnvelope args) key
      (makeEventFromArgs host.clock ev (Nostri.withEnvelope args)) =
      mainDm host (Nostri.withEnvelope args) key
        (makeEventFromArgs host.clock ev (Nostri.withEnvelope args)) := by
    refine if_neg fun hnull => ?_
    exact Bool.false_ne_true ((hmessage hnull.1).1.symm.trans hnull.2)
  rw [hdm]
  exact main_dm_iff fun hencrypt => (hmessage hencrypt).2

/-- The status of either driver is 0 exactly when the complete line was written, if and only if
these conditions hold. -/
theorem zero_status_iff (host : Host) (fuel : Nat) :
    (∀ (args : Args) (ev : NostrEvent) (room : Nat),
      Truthful (fun o => o.envelope = true ∧ Written host.crypto args.content.isNone o)
          (Nostri.makeMessage host fuel args ev room) ↔
        (initSecpContext host.crypto host.random = true →
          Reliable host fuel args (makeEventFromArgs host.clock ev args) args.content.isNone
            (Nostri.LineFits args.content.isNone room))) ∧
    ∀ (argv : List CStr) (st : ParseState), readArgs host argv = .ok st →
      (Truthful (Written host.crypto false) (main host fuel argv) ↔
        Reliable host fuel st.args (makeEventFromArgs host.clock st.ev st.args) false
          fun _ => True) := by
  constructor
  · intro args ev room
    exact make_message_truthful_iff host fuel args ev room
  · intro argv st hread
    exact main_truthful_iff fuel hread

/-- The sample note asks for nothing that could go wrong. -/
theorem reliable_sample :
    Reliable sampleHost 0 (sampleParsed "1688794190").args
      (makeEventFromArgs sampleHost.clock (sampleParsed "1688794190").ev
        (sampleParsed "1688794190").args) false fun _ => True := by
  refine ⟨fun _ _ hencrypt => ?_, fun _ _ _ _ _ => tags_defined_of_none rfl,
    fun key draft signed _ hdraft hsealed => ⟨rfl, ?_, trivial⟩⟩
  · cases hencrypt
  · have hwork : (sampleParsed "1688794190").args.idWork = none := rfl
    cases hdraft with
    | message hencrypt => cases hencrypt
    | note =>
        cases hsealed with
        | mk hid =>
            rw [hwork] at hid
            cases hid with
            | plain =>
                intro s hs
                obtain rfl : s = arg "hello" := by
                  simpa [NostrEvent.tagStrings, makeEventFromArgs, sampleParsed, NostrEvent.zero,
                    Args.zero] using hs
                decide +kernel

/-- Its line is printed in full. -/
theorem zero_status_iff_hello :
    ∃ o, main sampleHost 0 (sampleArgv "1688794190") = .ok o ∧ Written sampleCrypto false o := by
  have hread : readArgs sampleHost (sampleArgv "1688794190") = .ok (sampleParsed "1688794190") :=
    read_sample rfl
  obtain ⟨sig, hsig⟩ := sign_sample_note
  obtain ⟨o, hmain, -⟩ := main_sample rfl hashed_sample.1 sample_text_room.1 hsig
  have htruthful := ((zero_status_iff sampleHost 0).2 _ _ hread).mpr reliable_sample
  rw [hmain] at htruthful
  exact ⟨o, hmain, truthful_ok.mp htruthful⟩

/-! ### A recipient that is no public key -/

/-- The greatest number of 32 bytes, which no point of the curve has as a coordinate. -/
def noPubkey : CStr :=
  arg "ffffffffffffffffffffffffffffffffffffffffffffffffffffffffffffffff"

/-- The sample note, encrypted for that recipient. -/
def dmArgv : List CStr :=
  arg "--dm" :: noPubkey :: sampleArgv "1688794190"

/-- What is read from these arguments. -/
def dmParsed : ParseState :=
  let st := sampleParsed "1688794190"
  { st with args := { st.args with
    encryptTo := recipient noPubkey, flags := { st.args.flags with encrypt := true } } }

/-- The line with a recipient is read. -/
theorem read_dm_argv : readArgs sampleHost dmArgv = .ok dmParsed := by
  have hdm : readOption (arg "--dm") = some .dm := rfl
  have htime : strtolErrno false (arg "1688794190").bytes 0 = 0 := rfl
  have hpubkey : hexDecodeBlock 32 noPubkey = some (recipient noPubkey) := rfl
  have hread : parseOperand false ⟨Args.zero, NostrEvent.zero, false, 0⟩ .dm noPubkey =
      .ok ⟨{ Args.zero with
        encryptTo := recipient noPubkey, flags := { Args.zero.flags with encrypt := true } },
        NostrEvent.zero, false, 0⟩ := by
    simp only [parseOperand, hpubkey]
  exact read_args_eq (List.cons_ne_nil _ _)
    (.operand hdm rfl hread (parses_sample rfl htime)) rfl

/-- Its key is the sample key. -/
theorem main_key_dm : mainKey sampleHost 0 dmParsed.args = .ok sampleKey := by
  have hsec : dmParsed.args.sec = some sampleSec := rfl
  have hcrypto : sampleHost.crypto = sampleCrypto := rfl
  simp only [mainKey, hsec, hcrypto, decode_sample_sec]

/-- The message cannot be encrypted, and that is reported with 0. -/
theorem main_dm_refused : ∃ message, mainDm sampleHost dmParsed.args sampleKey
    (makeEventFromArgs sampleHost.clock dmParsed.ev dmParsed.args) =
      .error (.failed 0 message []) := by
  have hsecret : sharedSecret sampleHost.crypto sampleKey dmParsed.args.encryptTo = none := by
    have hparse : sampleHost.crypto.ecPubkeyParse
        (compressedPubkey dmParsed.args.encryptTo) = none := rfl
    simp [sharedSecret, hparse]
  have hrefused : DmRefused sampleHost.toEnv sampleKey
      (makeEventFromArgs sampleHost.clock dmParsed.ev dmParsed.args) dmParsed.args.encryptTo :=
    ⟨⟨_, dm_sizes_eq (by decide +kernel)⟩, .inl hsecret⟩
  obtain ⟨error, hrun⟩ := make_encrypted_dm_refused
    (if dmParsed.args.flags.kind then dmParsed.args.kind else 4) hrefused
  have hencrypt : dmParsed.args.flags.encrypt = true := rfl
  rw [mainDm, if_pos hencrypt]
  simp only [hrun]
  exact ⟨_, rfl⟩

/-- Both drivers return 0 for it although nothing was written. -/
theorem failed_dm_returns_zero :
    (¬ ∀ (host : Host) (fuel : Nat) (args : Args) (ev : NostrEvent) (room : Nat),
      (status (Nostri.makeMessage host fuel args ev room) = some 0 ↔
        ∃ o, Nostri.makeMessage host fuel args ev room = .ok o ∧
          o.envelope = true ∧ Written host.crypto args.content.isNone o)) ∧
    ¬ ∀ (host : Host) (fuel : Nat) (argv : List CStr) (st : ParseState),
      readArgs host argv = .ok st → (status (main host fuel argv) = some 0 ↔
        ∃ o, main host fuel argv = .ok o ∧ Written host.crypto false o) := by
  obtain ⟨message, hdm⟩ := main_dm_refused
  constructor
  · intro h
    have hkey : Nostri.messageKey sampleHost 0 (Nostri.withEnvelope dmParsed.args) =
        .ok sampleKey := message_key_iff.mpr ⟨rfl, .given rfl decode_sample_sec⟩
    have hmessage : Nostri.messageDm sampleHost (Nostri.withEnvelope dmParsed.args) sampleKey
        (makeEventFromArgs sampleHost.clock dmParsed.ev (Nostri.withEnvelope dmParsed.args)) =
        .error (.failed 0 message []) := hdm
    have hrun : Nostri.makeMessage sampleHost 0 dmParsed.args dmParsed.ev bufferSize =
        .error (.failed 0 message []) := by
      simp only [Nostri.makeMessage, hkey, hmessage, bind, Except.bind]
    obtain ⟨o, ho, -⟩ :=
      (h sampleHost 0 dmParsed.args dmParsed.ev bufferSize).mp (by rw [hrun]; rfl)
    rw [hrun] at ho
    cases ho
  · intro h
    have hrun : main sampleHost 0 dmArgv = .error (.failed 0 message []) := by
      simp only [main, read_dm_argv, main_key_dm, hdm, bind, Except.bind]
    obtain ⟨o, ho, -⟩ := (h sampleHost 0 dmArgv dmParsed read_dm_argv).mp (by rw [hrun]; rfl)
    rw [hrun] at ho
    cases ho

end Gnostr
