import Gnostr.Cli.Args
import Gnostr.Cli.Dm
import Gnostr.Event.Print

/-!
# The program

`main` of `gnostr.c` with the mining of ids. The program reads its arguments, takes or makes a
key, encrypts the content when asked to, computes the id, signs and prints. Both mining loops have
no bound, so a run is given a number of rounds and may still be running after them.
-/

namespace Gnostr

open Wire

/-- The machine the program runs on. -/
structure Host extends Env where
  /-- What `time(NULL)` returns. -/
  clock : UInt64
  /-- `errno` when the arguments are read. -/
  errno : Nat
  /-- Whether `strtol` reports a text without digits. -/
  einval : Bool
  /-- Whether a file can be executed in place of the program. -/
  execvp : Bytes → Bool

/-- How a run ends without an event. -/
inductive Exit where
  | parse (stop : ParseStop)
  | exec (file : Bytes) (argv : List CStr)
  | undefined
  | aborted
  | running
  /-- The exit code, the error reported and what was printed until then. -/
  | failed (code : Nat) (message out : Bytes)

/-- A printed event. -/
structure Output where
  ev : NostrEvent
  envelope : Bool
  out : Bytes

/-! ## Mining -/

/-- The element `"nonce"`. -/
def nonceTag : CStr :=
  CStr.ofBytes (ascii "nonce")

/-- A tag that `ensure_nonce_tag` takes for a nonce tag. -/
def isShortNonce (tag : NostrTag) : Bool :=
  tag.strs.length = 2 ∧ tag.strs.head? = some nonceTag

/-- `ensure_nonce_tag`: the event and the position of its nonce tag. -/
def ensureNonceTag (ev : NostrEvent) (target : Int32) : Option (NostrEvent × Nat) :=
  match ev.tags.findIdx? isShortNonce with
  | some index => some (ev, index)
  | none =>
      let strTarget := CStr.ofBytes (snprintf 7 (signedDecimal target.toInt))
      (nostrAddTagN ev [nonceTag, CStr.ofBytes (ascii "0"), strTarget]).map fun tagged =>
        (tagged, ev.tags.length)

/-- `tag->strs[1] = strnonce`, with the number printed. -/
def setNonce (ev : NostrEvent) (index : Nat) (nonce : UInt64) : NostrEvent :=
  { ev with tags := ev.tags.modify index fun tag =>
    ⟨tag.strs.set 1 (CStr.ofBytes (snprintf 32 (decimal nonce.toNat)))⟩ }

/-- What `generate_event_id` reports when the text does not fit. -/
def outOfSpace : Bytes :=
  ascii "event_commitment: buffer out of space\n"

/-- The end of a run in which `mine_event` returns 0, with what was reported before. -/
def miningFailed (message : Bytes) : Exit :=
  .failed 22 (message ++ ascii "error when mining id\n") []

/-- The loop of `mine_event`, as both files have it, with their `generate_event_id`. -/
def mineLoop (generate : NostrEvent → Option (Bool × NostrEvent)) (index : Nat)
    (difficulty : Int32) : Nat → UInt64 → NostrEvent → Loop (Except Exit NostrEvent)
  | 0, _, _ => .running
  | fuel + 1, nonce, ev =>
      match generate (setNonce ev index nonce) with
      | none => .done (.error .undefined)
      | some (false, _) => .done (.error (miningFailed outOfSpace))
      | some (true, ev) =>
          if difficulty.toInt ≤ countLeadingZeroBits ev.id.1 then .done (.ok ev)
          else mineLoop generate index difficulty fuel (nonce + 1) ev

/-- `mine_event`, as both files have it. -/
def mineWith (generate : NostrEvent → Option (Bool × NostrEvent)) (fuel : Nat) (ev : NostrEvent)
    (difficulty : Int32) : Except Exit NostrEvent :=
  match ensureNonceTag ev difficulty with
  | none => .error (miningFailed [])
  | some (ev, index) =>
      match ev.tags[index]? with
      | none => .error .undefined
      | some tag =>
          if tag.strs.length ≠ 3 ∨ tag.strs.head? ≠ some nonceTag then .error .aborted
          else
            match mineLoop generate index difficulty fuel 0 ev with
            | .running => .error .running
            | .done mined => mined

/-- `mine_event`. -/
def mineEvent (sha256 : Bytes → Block 32) : Nat → NostrEvent → Int32 → Except Exit NostrEvent :=
  mineWith (generateEventId sha256)

/-! ## The steps of `main` -/

/-- `try_subcommand`. -/
def trySubcommand (host : Host) (argv : List CStr) : Except Exit Unit :=
  match argv with
  | [] => .ok ()
  | sub :: _ =>
      let file := snprintf 127 (ascii "gnostr-" ++ sub.bytes)
      if 1 ≤ sub.strlen ∧ sub.bytes.head? ≠ some 45 ∧ host.execvp file = true then
        .error (.exec file argv)
      else .ok ()

/-- Everything up to the arguments. -/
def readArgs (host : Host) (argv : List CStr) : Except Exit ParseState :=
  if argv = [] then .error (.parse .usage)
  else if ¬ initSecpContext host.crypto host.random then .error (.failed 2 [] [])
  else do
    trySubcommand host argv
    (parseArgs host.einval host.errno argv).mapError .parse

/-- `make_event_from_args`, behind the assignment of explicit tags. -/
def makeEventFromArgs (clock : UInt64) (ev : NostrEvent) (args : Args) : NostrEvent :=
  { ev with
    createdAt := if args.flags.createdAt then args.createdAt else clock
    content := args.content.getD (CStr.ofBytes [])
    kind := if args.flags.kind then args.kind else 1
    explicitTags := args.tags.or ev.explicitTags }

/-- The key that was given, or a new one. -/
def mainKey (host : Host) (fuel : Nat) (args : Args) : Except Exit Key :=
  match args.sec with
  | some sec =>
      match decodeKey host.crypto sec with
      | some key => .ok key
      | none =>
          .error (.failed 8 (if (hexDecodeBlock 32 sec).isSome then []
            else ascii "could not hex decode secret key\n") [])
  | none =>
      let difficulty :=
        if args.flags.difficulty ∧ args.flags.minePubkey then some args.difficulty else none
      match generateKey host.crypto host.random difficulty fuel with
      | .running => .error .running
      | .done none => .error (.failed 4 (ascii "could not generate key\n") [])
      | .done (some key) => .ok key

/-- The encrypted message when one was asked for. -/
def mainDm (host : Host) (args : Args) (key : Key) (ev : NostrEvent) : Except Exit NostrEvent :=
  if args.flags.encrypt then
    let kind := if args.flags.kind then args.kind else 4
    match makeEncryptedDm host.toEnv key ev args.encryptTo kind with
    | .ok ev => .ok ev
    | .error .undefined => .error .undefined
    | .error .aborted => .error .aborted
    | .error (.failed error _) =>
        .error (.failed 0 (error.message ++ ascii "error making encrypted dm\n") [])
  else .ok ev

/-- The id, mined when a difficulty was given for it. -/
def mainId (host : Host) (fuel : Nat) (args : Args) (ev : NostrEvent) : Except Exit NostrEvent :=
  if args.flags.difficulty ∧ ¬ args.flags.minePubkey then
    mineEvent host.crypto.sha256 fuel ev args.difficulty
  else
    match generateEventId host.crypto.sha256 ev with
    | none => .error .undefined
    | some (true, ev) => .ok ev
    | some (false, _) =>
        .error (.failed 5 (outOfSpace ++ ascii "could not generate event id\n") [])

/-- The signature. -/
def mainSign (host : Host) (key : Key) (ev : NostrEvent) : Except Exit NostrEvent :=
  match signEvent host.crypto host.random key ev with
  | some ev => .ok ev
  | none => .error (.failed 6 (ascii "could not sign event\n") [])

/-- The line. -/
def mainPrint (args : Args) (ev : NostrEvent) : Except Exit Output :=
  match printEvent ev args.flags.envelope with
  | none => .error .undefined
  | some (true, out) => .ok ⟨ev, args.flags.envelope, out⟩
  | some (false, out) => .error (.failed 88 (ascii "buffer too small\n") out)

/-- `main` on the arguments behind the program's name: an event that is printed before 0 is
returned, or another end. -/
def main (host : Host) (fuel : Nat) (argv : List CStr) : Except Exit Output := do
  let st ← readArgs host argv
  let ev := makeEventFromArgs host.clock st.ev st.args
  let key ← mainKey host fuel st.args
  let ev ← mainDm host st.args key ev
  let ev ← mainId host fuel st.args { ev with pubkey := key.pubkey }
  let ev ← mainSign host key ev
  mainPrint st.args ev

/-! ## How the steps end -/

/-- A failure with one of these codes, before anything was printed. -/
def Exit.Ends (codes : List Nat) : Exit → Prop
  | .failed code _ out => code ∈ codes ∧ out = []
  | _ => True

/-- An exit with one of some codes is one with one of more. -/
theorem Exit.Ends.mono {codes codes' : List Nat} {stop : Exit} (h : stop.Ends codes)
    (hsub : codes ⊆ codes') : stop.Ends codes' := by
  cases stop with
  | failed code message out => exact ⟨hsub h.1, h.2⟩
  | parse stop => trivial
  | exec file argv => trivial
  | undefined => trivial
  | aborted => trivial
  | running => trivial

/-- Arguments that cannot be read end the program with 2. -/
theorem read_args_ends {host : Host} {argv : List CStr} {stop : Exit}
    (h : readArgs host argv = .error stop) : stop.Ends [2] := by
  unfold readArgs at h
  split at h
  · cases h
    trivial
  · split at h
    · cases h
      exact ⟨by decide, rfl⟩
    · rcases bind_eq_error h with hsub | ⟨-, -, hparse⟩
      · unfold trySubcommand at hsub
        split at hsub
        · cases hsub
        · simp only at hsub
          split at hsub
          · cases hsub
            trivial
          · cases hsub
      · cases hargs : parseArgs host.einval host.errno argv with
        | ok st =>
            rw [hargs] at hparse
            cases hparse
        | error stop =>
            rw [hargs] at hparse
            cases hparse
            trivial

/-- A key that cannot be had ends it with 8 or 4. -/
theorem main_key_ends {host : Host} {fuel : Nat} {args : Args} {stop : Exit}
    (h : mainKey host fuel args = .error stop) : stop.Ends [8, 4] := by
  unfold mainKey at h
  split at h
  · split at h
    · cases h
    · cases h
      exact ⟨by decide, rfl⟩
  · simp only at h
    split at h
    · cases h
      trivial
    · cases h
      exact ⟨by decide, rfl⟩
    · cases h

/-- A message that cannot be encrypted ends it with 0. -/
theorem main_dm_ends {host : Host} {args : Args} {key : Key} {ev : NostrEvent} {stop : Exit}
    (h : mainDm host args key ev = .error stop) : stop.Ends [0] := by
  unfold mainDm at h
  split at h
  · simp only at h
    split at h
    · cases h
    · cases h
      trivial
    · cases h
      trivial
    · cases h
      exact ⟨by decide, rfl⟩
  · cases h

/-- The loop of the miner fails for want of room, or with tags that cannot be serialised. -/
theorem mine_loop_error {generate : NostrEvent → Option (Bool × NostrEvent)} {index : Nat}
    {difficulty : Int32} {fuel : Nat} {nonce : UInt64} {ev : NostrEvent} {stop : Exit}
    (h : mineLoop generate index difficulty fuel nonce ev = .done (.error stop)) :
    stop = .undefined ∨ stop = miningFailed outOfSpace := by
  induction fuel generalizing nonce ev with
  | zero => cases h
  | succ fuel ih =>
      simp only [mineLoop] at h
      split at h
      · cases h
        exact .inl rfl
      · cases h
        exact .inr rfl
      · split at h
        · cases h
        · exact ih h

/-- Mining that cannot go on ends it with 22. -/
theorem mine_with_ends {generate : NostrEvent → Option (Bool × NostrEvent)} {fuel : Nat}
    {ev : NostrEvent} {difficulty : Int32} {stop : Exit}
    (h : mineWith generate fuel ev difficulty = .error stop) : stop.Ends [22] := by
  unfold mineWith at h
  split at h
  · cases h
    exact ⟨by decide, rfl⟩
  · split at h
    · cases h
      trivial
    · split at h
      · cases h
        trivial
      · split at h
        · cases h
          trivial
        · next mined hloop =>
          rw [h] at hloop
          rcases mine_loop_error hloop with rfl | rfl
          · trivial
          · exact ⟨by decide, rfl⟩

/-- So does an identifier that has to be mined; one that cannot be made ends it with 5. -/
theorem main_id_ends {host : Host} {fuel : Nat} {args : Args} {ev : NostrEvent} {stop : Exit}
    (h : mainId host fuel args ev = .error stop) : stop.Ends [22, 5] := by
  unfold mainId at h
  split at h
  · exact (mine_with_ends h).mono (by decide)
  · split at h
    · cases h
      trivial
    · cases h
    · cases h
      exact ⟨by decide, rfl⟩

/-- An event that cannot be signed ends it with 6. -/
theorem main_sign_ends {host : Host} {key : Key} {ev : NostrEvent} {stop : Exit}
    (h : mainSign host key ev = .error stop) : stop.Ends [6] := by
  unfold mainSign at h
  split at h
  · cases h
  · cases h
    exact ⟨by decide, rfl⟩

/-! ## What is hashed and what is printed -/

/-- The bytes `generate_event_id` hashes: none when there is no text to hash. -/
def hashed (ev : NostrEvent) : Bytes :=
  (committed ev (fun _ => 0) bufferSize).getD []

/-- The text of an event was hashed, and the hash is its id. -/
structure HasId (sha256 : Bytes → Block 32) (ev : NostrEvent) : Prop where
  hashed_eq : hashed ev = commitmentText ev
  id_eq : ev.id = sha256 (hashed ev)

/-- The identifier that is made is that of the event. -/
theorem generate_event_id_has_id {sha256 : Bytes → Block 32} {ev ev' : NostrEvent}
    (h : generateEventId sha256 ev = some (true, ev')) :
    HasId sha256 ev' ∧ ev'.createdAt = ev.createdAt := by
  obtain ⟨htags, hroom, rfl⟩ := generate_event_id_some h
  have hhashed : hashed { ev with id := sha256 (commitmentText ev) } = commitmentText ev := by
    have hcommitted := (committed_iff { ev with id := sha256 (commitmentText ev) } (fun _ => 0)
      bufferSize (commitmentText ev)).mpr ⟨htags, hroom, rfl⟩
    rw [hashed, hcommitted, Option.getD_some]
  exact ⟨⟨hhashed, by rw [hhashed]⟩, rfl⟩

/-- The last nonce set is the one that counts. -/
theorem set_nonce_set_nonce (ev : NostrEvent) (index : Nat) (a b : UInt64) :
    setNonce (setNonce ev index a) index b = setNonce ev index b := by
  simp [setNonce, List.modify_modify_eq, Function.comp_def]

/-- What a `generate_event_id` does: it hashes a text that the id is no part of. -/
structure Generates (generate : NostrEvent → Option (Bool × NostrEvent))
    (sha256 : Bytes → Block 32) (text : NostrEvent → Bytes) : Prop where
  run : ∀ ev, generate ev =
    if ev.TagsDefined then
      some (if (text ev).length < bufferSize then (true, { ev with id := sha256 (text ev) })
        else (false, ev))
    else none
  forgets : ∀ ev id, text { ev with id := id } = text ev

/-- `generateEventId` hashes the commitment. -/
theorem generates_event_id (sha256 : Bytes → Block 32) :
    Generates (generateEventId sha256) sha256 commitmentText :=
  ⟨generate_event_id_run sha256, fun _ _ => rfl⟩

/-- Of the texts tried one after the other, number `n` is the first whose hash has the work, and no
text until then was too long. -/
structure FirstWork (sha256 : Bytes → Block 32) (texts : Nat → Bytes) (difficulty : Int32)
    (n : Nat) : Prop where
  room : ∀ m ≤ n, (texts m).length < bufferSize
  less : ∀ m < n, countLeadingZeroBits (sha256 (texts m)).1 < difficulty.toInt
  work : difficulty.toInt ≤ countLeadingZeroBits (sha256 (texts n)).1

section

variable {generate : NostrEvent → Option (Bool × NostrEvent)} {sha256 : Bytes → Block 32}
  {text : NostrEvent → Bytes} {texts : Nat → Bytes} {difficulty : Int32}

/-- The first text is enough when it fits and its hash has the zeros. -/
theorem first_work_zero :
    FirstWork sha256 texts difficulty 0 ↔
      (texts 0).length < bufferSize ∧
        difficulty.toInt ≤ countLeadingZeroBits (sha256 (texts 0)).1 := by
  constructor
  · exact fun h => ⟨h.room 0 (Nat.le_refl 0), h.work⟩
  · rintro ⟨hroom, hwork⟩
    exact ⟨fun m hm => by rwa [Nat.le_zero.mp hm], fun m hm => absurd hm (Nat.not_lt_zero m),
      hwork⟩

/-- The first text is passed by, and the rest is searched. -/
theorem first_work_succ {n : Nat} :
    FirstWork sha256 texts difficulty (n + 1) ↔
      (texts 0).length < bufferSize ∧
        countLeadingZeroBits (sha256 (texts 0)).1 < difficulty.toInt ∧
        FirstWork sha256 (fun m => texts (m + 1)) difficulty n := by
  constructor
  · intro h
    exact ⟨h.room 0 (Nat.zero_le _), h.less 0 (Nat.succ_pos n),
      fun m hm => h.room (m + 1) (Nat.succ_le_succ hm),
      fun m hm => h.less (m + 1) (Nat.succ_lt_succ hm), h.work⟩
  · rintro ⟨hroom, hless, h⟩
    refine ⟨fun m hm => ?_, fun m hm => ?_, h.work⟩
    · cases m with
      | zero => exact hroom
      | succ m => exact h.room m (Nat.le_of_succ_le_succ hm)
    · cases m with
      | zero => exact hless
      | succ m => exact h.less m (Nat.lt_of_succ_lt_succ hm)

/-- However many rounds it takes, a mined event has the id of its text with the first nonce that
gives the work. -/
theorem mine_loop_iff (hgenerate : Generates generate sha256 text) {index fuel : Nat}
    {nonce : UInt64} {ev ev' : NostrEvent} (htags : ev.TagsDefined) :
    mineLoop generate index difficulty fuel nonce ev = .done (.ok ev') ↔
      ∃ n < fuel,
        FirstWork sha256 (fun m => text (setNonce ev index (nonce + .ofNat m))) difficulty n ∧
        ev' = { setNonce ev index (nonce + .ofNat n) with
          id := sha256 (text (setNonce ev index (nonce + .ofNat n))) } := by
  induction fuel generalizing nonce ev with
  | zero => exact iff_of_false (fun h => by cases h) (fun ⟨n, hn, _⟩ => Nat.not_lt_zero n hn)
  | succ fuel ih =>
      have hzero : nonce + .ofNat 0 = nonce := by simp
      have hnext : ∀ n : Nat, nonce + 1 + .ofNat n = nonce + .ofNat (n + 1) := by
        intro n
        rw [UInt64.ofNat_add, UInt64.add_comm (.ofNat n), ← UInt64.add_assoc]
        rfl
      have hdefined : (setNonce ev index nonce).TagsDefined := htags
      simp only [mineLoop, hgenerate.run, if_pos hdefined]
      by_cases hroom : (text (setNonce ev index nonce)).length < bufferSize
      · simp only [if_pos hroom]
        by_cases hwork : difficulty.toInt ≤
            countLeadingZeroBits (sha256 (text (setNonce ev index nonce))).1
        · simp only [if_pos hwork]
          constructor
          · intro h
            cases h
            refine ⟨0, Nat.succ_pos fuel, first_work_zero.mpr ?_, by rw [hzero]⟩
            rw [hzero]
            exact ⟨hroom, hwork⟩
          · rintro ⟨n, -, hfirst, rfl⟩
            cases n with
            | zero => rw [hzero]
            | succ n =>
                have hless := hfirst.less 0 (Nat.succ_pos n)
                rw [hzero] at hless
                exact absurd hwork (Int.not_le.mpr hless)
        · -- the next round works on the event with its nonce and its id replaced
          let mid := { setNonce ev index nonce with id := sha256 (text (setNonce ev index nonce)) }
          have hset : ∀ (k : UInt64) (id : Block 32),
              { setNonce mid index k with id := id } = { setNonce ev index k with id := id } :=
            fun k id => congrArg (fun e : NostrEvent => { e with id := id })
              (set_nonce_set_nonce ev index nonce k)
          have htext : ∀ k : UInt64, text (setNonce mid index k) = text (setNonce ev index k) := by
            intro k
            rw [← hgenerate.forgets _ ev.id, hset, hgenerate.forgets]
          have hrest : mineLoop generate index difficulty fuel (nonce + 1) mid = .done (.ok ev') ↔
              _ := @ih (nonce + 1) mid htags
          simp only [htext, hnext, hset] at hrest
          simp only [if_neg hwork]
          rw [hrest]
          constructor
          · rintro ⟨n, hn, hfirst, rfl⟩
            refine ⟨n + 1, Nat.succ_lt_succ hn, first_work_succ.mpr ?_, rfl⟩
            rw [hzero]
            exact ⟨hroom, Int.lt_of_not_ge hwork, hfirst⟩
          · rintro ⟨n, hn, hfirst, rfl⟩
            cases n with
            | zero =>
                have hdone := hfirst.work
                rw [hzero] at hdone
                exact absurd hdone hwork
            | succ n =>
                exact ⟨n, Nat.lt_of_succ_lt_succ hn, (first_work_succ.mp hfirst).2.2, rfl⟩
      · simp only [if_neg hroom]
        refine iff_of_false (fun h => by cases h) ?_
        rintro ⟨n, -, hfirst, -⟩
        have hfits := hfirst.room 0 (Nat.zero_le n)
        rw [hzero] at hfits
        exact hroom hfits

end

/-- The text of the difficulty in a new nonce tag. -/
def targetText (difficulty : Int32) : CStr :=
  CStr.ofBytes (snprintf 7 (signedDecimal difficulty.toInt))

/-- There is room for a new nonce tag, and no tag is taken for one. -/
structure NostrEvent.TakesNonce (ev : NostrEvent) : Prop where
  fresh : ∀ tag ∈ ev.tags, isShortNonce tag = false
  room : ev.tags.length < maxTags

/-- A tag of two elements is taken for the nonce tag. -/
theorem ensure_nonce_tag_short {ev : NostrEvent} (difficulty : Int32) {tag : NostrTag}
    (htag : tag ∈ ev.tags) (hshort : isShortNonce tag = true) :
    ∃ index found, ensureNonceTag ev difficulty = some (ev, index) ∧
      ev.tags[index]? = some found ∧ found.strs.length = 2 := by
  have hsome : (ev.tags.findIdx? isShortNonce).isSome = true := by
    rw [List.findIdx?_isSome, List.any_eq_true]
    exact ⟨tag, htag, hshort⟩
  obtain ⟨index, hindex⟩ := Option.isSome_iff_exists.mp hsome
  obtain ⟨hlt, hnonce, -⟩ := List.findIdx?_eq_some_iff_getElem.mp hindex
  simp only [isShortNonce, decide_eq_true_eq] at hnonce
  exact ⟨index, _, by rw [ensureNonceTag, hindex], List.getElem?_eq_getElem hlt, hnonce.1⟩

/-- Without such a tag a new one stands last, if there is room for it. -/
theorem ensure_nonce_tag_fresh {ev : NostrEvent} (difficulty : Int32)
    (hfresh : ∀ tag ∈ ev.tags, isShortNonce tag = false) :
    ensureNonceTag ev difficulty =
      if ev.tags.length < maxTags then
        some ({ ev with tags := ev.tags ++
          [⟨[nonceTag, CStr.ofBytes (ascii "0"), targetText difficulty]⟩] }, ev.tags.length)
      else none := by
  have hnone : ev.tags.findIdx? isShortNonce = none := List.findIdx?_eq_none_iff.mpr hfresh
  simp only [ensureNonceTag, hnone, nostrAddTagN]
  by_cases hroom : ev.tags.length < maxTags
  · rw [if_pos hroom, if_neg (by omega)]
    rfl
  · rw [if_neg hroom, if_pos (by omega)]
    rfl

/-- The nonce tag of a mined event. -/
def minedTag (nonce : UInt64) (target : CStr) : NostrTag :=
  ⟨[nonceTag, CStr.ofBytes (snprintf 32 (decimal nonce.toNat)), target]⟩

/-- An event with a nonce tag behind its tags. -/
def NostrEvent.nonced (ev : NostrEvent) (difficulty : Int32) (nonce : UInt64) : NostrEvent :=
  { ev with tags := ev.tags ++ [minedTag nonce (targetText difficulty)] }

/-- Writing a nonce changes the last tag only. -/
theorem set_nonce_last (ev : NostrEvent) (difficulty : Int32) (nonce : UInt64) :
    setNonce { ev with tags := ev.tags ++
        [⟨[nonceTag, CStr.ofBytes (ascii "0"), targetText difficulty]⟩] } ev.tags.length nonce =
      ev.nonced difficulty nonce := by
  have hlast : ev.tags.length < (ev.tags ++ [(⟨[nonceTag, CStr.ofBytes (ascii "0"),
      targetText difficulty]⟩ : NostrTag)]).length := by simp
  simp [setNonce, NostrEvent.nonced, minedTag, List.modify_eq_take_cons_drop hlast]

/-- An event that takes a nonce goes into the loop. -/
theorem mine_with_eq (generate : NostrEvent → Option (Bool × NostrEvent)) (fuel : Nat)
    {ev : NostrEvent} (difficulty : Int32) (h : ev.TakesNonce) :
    mineWith generate fuel ev difficulty =
      match mineLoop generate ev.tags.length difficulty fuel 0 { ev with tags := ev.tags ++
          [⟨[nonceTag, CStr.ofBytes (ascii "0"), targetText difficulty]⟩] } with
      | .running => .error .running
      | .done mined => mined := by
  rw [mineWith, ensure_nonce_tag_fresh difficulty h.fresh, if_pos h.room]
  simp

/-- A tag of two elements fails the assertion: `ensure_nonce_tag` looks for two where the assertion
wants three. -/
theorem mine_with_short (generate : NostrEvent → Option (Bool × NostrEvent)) (fuel : Nat)
    {ev : NostrEvent} (difficulty : Int32) (h : ¬ ∀ tag ∈ ev.tags, isShortNonce tag = false) :
    mineWith generate fuel ev difficulty = .error .aborted := by
  push Not at h
  obtain ⟨tag, htag, hshort⟩ := h
  obtain ⟨index, found, hensure, hfound, htwo⟩ :=
    ensure_nonce_tag_short difficulty htag (by simpa using hshort)
  rw [mineWith, hensure]
  simp [hfound, htwo]

/-- An event that takes no nonce fails the assertion or is refused. -/
theorem mine_with_refused (generate : NostrEvent → Option (Bool × NostrEvent)) (fuel : Nat)
    {ev : NostrEvent} (difficulty : Int32) (h : ¬ ev.TakesNonce) :
    mineWith generate fuel ev difficulty = .error .aborted ∨
      mineWith generate fuel ev difficulty = .error (miningFailed []) := by
  by_cases hfresh : ∀ tag ∈ ev.tags, isShortNonce tag = false
  · have hfull : ¬ ev.tags.length < maxTags := fun hroom => h ⟨hfresh, hroom⟩
    refine .inr ?_
    rw [mineWith, ensure_nonce_tag_fresh difficulty hfresh, if_neg hfull]
  · exact .inl (mine_with_short generate fuel difficulty hfresh)

section

variable {generate : NostrEvent → Option (Bool × NostrEvent)} {sha256 : Bytes → Block 32}
  {text : NostrEvent → Bytes} {fuel : Nat} {ev ev' : NostrEvent} {difficulty : Int32}

/-- Tags that cannot be serialised are noticed in the first round. -/
theorem mine_with_undefined (hgenerate : Generates generate sha256 text) (h : ev.TakesNonce)
    (htags : ¬ ev.TagsDefined) :
    mineWith generate fuel ev difficulty = .error (if fuel = 0 then .running else .undefined) := by
  rw [mine_with_eq generate fuel difficulty h]
  cases fuel with
  | zero => rfl
  | succ fuel =>
      have hnone : generate (ev.nonced difficulty 0) = none :=
        (hgenerate.run _).trans (if_neg htags)
      rw [mineLoop, set_nonce_last, hnone]
      rfl

/-- With tags that can be serialised, mining gives the event with the first nonce whose id has the
work. -/
theorem mine_with_iff (hgenerate : Generates generate sha256 text) (htags : ev.TagsDefined) :
    mineWith generate fuel ev difficulty = .ok ev' ↔
      ev.TakesNonce ∧ ∃ n < fuel,
        FirstWork sha256 (fun m => text (ev.nonced difficulty (.ofNat m))) difficulty n ∧
        ev' = { ev.nonced difficulty (.ofNat n) with
          id := sha256 (text (ev.nonced difficulty (.ofNat n))) } := by
  by_cases h : ev.TakesNonce
  · have hloop := @mine_loop_iff generate sha256 text difficulty hgenerate ev.tags.length fuel 0
      { ev with tags := ev.tags ++
        [⟨[nonceTag, CStr.ofBytes (ascii "0"), targetText difficulty]⟩] } ev' htags
    simp only [set_nonce_last, UInt64.zero_add] at hloop
    rw [mine_with_eq generate fuel difficulty h, ← hloop, and_iff_right h]
    split
    · next hrun => simp [hrun]
    · next hrun => simp [hrun]
  · refine iff_of_false (fun hrun => ?_) (fun hrun => h hrun.1)
    rcases mine_with_refused generate fuel difficulty h with hstop | hstop <;>
      rw [hstop] at hrun <;> cases hrun

/-- With tags that can be serialised the loop stays defined. -/
theorem mine_loop_defined (hgenerate : Generates generate sha256 text) (htags : ev.TagsDefined)
    {index : Nat} {nonce : UInt64} {stop : Exit}
    (h : mineLoop generate index difficulty fuel nonce ev = .done (.error stop)) :
    stop = miningFailed outOfSpace := by
  induction fuel generalizing nonce ev with
  | zero => cases h
  | succ fuel ih =>
      have hdefined : (setNonce ev index nonce).TagsDefined := htags
      simp only [mineLoop, hgenerate.run, if_pos hdefined] at h
      by_cases hroom : (text (setNonce ev index nonce)).length < bufferSize
      · simp only [if_pos hroom] at h
        split at h
        · cases h
        · have hmid : NostrEvent.TagsDefined { setNonce ev index nonce with
              id := sha256 (text (setNonce ev index nonce)) } := htags
          exact ih hmid h
      · simp only [if_neg hroom] at h
        cases h
        rfl

/-- An event that was mined took a nonce, and its tags could be serialised. -/
theorem tags_defined_of_mined (hgenerate : Generates generate sha256 text)
    (h : mineWith generate fuel ev difficulty = .ok ev') : ev.TagsDefined := by
  by_contra htags
  by_cases htakes : ev.TakesNonce
  · rw [mine_with_undefined hgenerate htakes htags] at h
    cases h
  · rcases mine_with_refused generate fuel difficulty htakes with hstop | hstop <;>
      rw [hstop] at h <;> cases h

end

/-- Mining adds one tag, last, and computes the id of the event with it; the id has the work, and
with no smaller nonce it has. -/
theorem mine_event_ok {sha256 : Bytes → Block 32} {fuel : Nat} {ev ev' : NostrEvent}
    {difficulty : Int32} (h : mineEvent sha256 fuel ev difficulty = .ok ev') :
    ∃ nonce,
      generateEventId sha256 (ev.nonced difficulty nonce) = some (true, ev') ∧
      difficulty.toInt ≤ countLeadingZeroBits ev'.id.1 ∧
      ∀ smaller < nonce, ∃ mid,
        generateEventId sha256 (ev.nonced difficulty smaller) = some (true, mid) ∧
          countLeadingZeroBits mid.id.1 < difficulty.toInt := by
  have htags := tags_defined_of_mined (generates_event_id sha256) h
  obtain ⟨-, n, -, hfirst, rfl⟩ := (mine_with_iff (generates_event_id sha256) htags).mp h
  refine ⟨.ofNat n, generate_event_id_eq sha256 htags (hfirst.room n (Nat.le_refl n)),
    hfirst.work, fun smaller hsmaller => ?_⟩
  -- the counter may have wrapped around, but then it came by every number
  have hround : smaller.toNat < n := by
    rw [UInt64.lt_iff_toNat_lt, UInt64.toNat_ofNat'] at hsmaller
    exact Nat.lt_of_lt_of_le hsmaller (Nat.mod_le n _)
  have hroom := hfirst.room smaller.toNat (Nat.le_of_lt hround)
  have hless := hfirst.less smaller.toNat hround
  rw [UInt64.ofNat_toNat] at hroom hless
  exact ⟨_, generate_event_id_eq sha256 htags hroom, hless⟩

/-- The id is computed last, from all of the text. Of the tags, at most a nonce is added before,
and then the id has the work asked for. -/
theorem main_id_ok {host : Host} {fuel : Nat} {args : Args} {ev ev' : NostrEvent}
    (h : mainId host fuel args ev = .ok ev') :
    ∃ extra, generateEventId host.crypto.sha256 { ev with tags := ev.tags ++ extra } =
        some (true, ev') ∧
      (args.flags.difficulty = true → args.flags.minePubkey = false →
        args.difficulty.toInt ≤ countLeadingZeroBits ev'.id.1) := by
  unfold mainId at h
  split at h
  · obtain ⟨nonce, hid, hwork, -⟩ := mine_event_ok h
    exact ⟨[minedTag nonce (targetText args.difficulty)], hid, fun _ _ => hwork⟩
  · next hmine =>
    split at h
    · cases h
    · next made hid =>
      cases h
      refine ⟨[], by rw [List.append_nil]; exact hid, fun hdifficulty hpubkey => ?_⟩
      exact absurd ⟨hdifficulty, by simp [hpubkey]⟩ hmine
    · cases h

/-- The tag for the recipient of a message. -/
def recipientTag (pubkey : Block 32) : NostrTag :=
  ⟨[pTag, hexStr pubkey]⟩

/-- Encryption changes the content and the kind, and adds the recipient behind the tags. -/
theorem main_dm_ok {host : Host} {args : Args} {key : Key} {ev ev' : NostrEvent}
    (h : mainDm host args key ev = .ok ev') :
    ∃ content kind, ev' = { ev with
      content := content
      kind := kind
      tags := ev.tags ++ if args.flags.encrypt then [recipientTag args.encryptTo] else [] } := by
  unfold mainDm at h
  split at h
  · next hencrypt =>
    simp only at h
    split at h
    · next made hmade =>
      cases h
      obtain ⟨secret, iv, -, -, rfl⟩ := make_encrypted_dm_event hmade
      exact ⟨_, _, by rw [if_pos hencrypt]; rfl⟩
    · cases h
    · cases h
    · cases h
  · next hencrypt =>
    cases h
    exact ⟨ev.content, ev.kind, by rw [if_neg hencrypt, List.append_nil]⟩

/-- A key that is mined has the work asked for. -/
theorem mine_key_done {c : Crypto} {difficulty : Int32} {fuel : Nat} {secret : Block 32} {key : Key}
    (h : mineKey c difficulty fuel secret = .done (some key)) :
    difficulty.toInt ≤ countLeadingZeroBits key.pubkey.1 := by
  induction fuel generalizing secret with
  | zero => cases h
  | succ fuel ih =>
      simp only [mineKey] at h
      split at h
      · cases h
      · next created hcreate =>
        split at h
        · next hwork =>
          cases h
          exact hwork
        · exact ih h

/-- The key is the one that was given, or a new one with the work asked for. -/
theorem main_key_ok {host : Host} {fuel : Nat} {args : Args} {key : Key}
    (h : mainKey host fuel args = .ok key) :
    (∃ sec, args.sec = some sec ∧ decodeKey host.crypto sec = some key) ∨
      (args.sec = none ∧ (args.flags.difficulty = true → args.flags.minePubkey = true →
        args.difficulty.toInt ≤ countLeadingZeroBits key.pubkey.1)) := by
  unfold mainKey at h
  split at h
  · next sec hsec =>
    split at h
    · next decoded hdecode =>
      cases h
      exact .inl ⟨sec, hsec, hdecode⟩
    · cases h
  · next hsec =>
    refine .inr ⟨hsec, fun hdifficulty hmine => ?_⟩
    simp only [hdifficulty, hmine, and_self, if_true] at h
    unfold generateKey at h
    split at h
    · cases h
    · cases h
    · next made hmade =>
      cases h
      split at hmade
      · cases hmade
      · exact mine_key_done hmade

/-- An event that is signed has a signature of its key. -/
theorem main_sign_ok {host : Host} {key : Key} {ev ev' : NostrEvent}
    (h : mainSign host key ev = .ok ev') :
    ∃ aux sig, host.crypto.schnorrsigSign32 ev.id key.pair aux = some sig ∧
      ev' = { ev with sig := sig } := by
  unfold mainSign at h
  split at h
  · next signed hsign =>
    cases h
    obtain ⟨aux, sig, -, hsig, rfl⟩ := sign_event_some hsign
    exact ⟨aux, sig, hsig, rfl⟩
  · cases h

/-- What is printed is the line of the event. -/
theorem main_print_ok {args : Args} {ev : NostrEvent} {o : Output}
    (h : mainPrint args ev = .ok o) : o.ev = ev ∧ o.out = (printed ev).line o.envelope := by
  unfold mainPrint at h
  split at h
  · cases h
  · next out hprint =>
    cases h
    exact ⟨rfl, (print_event_success hprint).2.2⟩
  · cases h

/-- The arguments of a run that goes on were accepted. -/
theorem read_args_ok {host : Host} {argv : List CStr} {st : ParseState}
    (h : readArgs host argv = .ok st) : parseArgs host.einval host.errno argv = .ok st := by
  unfold readArgs at h
  split_ifs at h
  obtain ⟨-, -, h⟩ := bind_eq_ok h
  cases hparse : parseArgs host.einval host.errno argv with
  | error stop =>
      rw [hparse] at h
      cases h
  | ok st' =>
      rw [hparse] at h
      cases h
      rfl

/-- The time of the event: the operand of the last `--created-at`, or the clock. -/
def eventTime (host : Host) (argv : List CStr) : UInt64 :=
  ((lastOperand .createdAt argv).map parseNum).getD host.clock

/-- The time of the event is the one asked for, or that of the clock. -/
theorem make_event_from_args_time {host : Host} {argv : List CStr} {st : ParseState}
    (h : parseArgs host.einval host.errno argv = .ok st) :
    (makeEventFromArgs host.clock st.ev st.args).createdAt = eventTime host argv := by
  rw [eventTime, ← time_parse_args h, ParseState.time]
  show (if st.args.flags.createdAt = true then st.args.createdAt else host.clock) = _
  split <;> rfl

/-- A run in which every step succeeds. -/
theorem main_of_steps {host : Host} {fuel : Nat} {argv : List CStr} {st : ParseState} {key : Key}
    {dm ev signed : NostrEvent} {o : Output} (hread : readArgs host argv = .ok st)
    (hkey : mainKey host fuel st.args = .ok key)
    (hdm : mainDm host st.args key (makeEventFromArgs host.clock st.ev st.args) = .ok dm)
    (hid : mainId host fuel st.args { dm with pubkey := key.pubkey } = .ok ev)
    (hsign : mainSign host key ev = .ok signed) (hprint : mainPrint st.args signed = .ok o) :
    main host fuel argv = .ok o := by
  simp only [main, hread, hkey, hdm, hid, hsign, hprint, bind, Except.bind]

/-- The steps of a run that prints an event. -/
theorem steps_of_main {host : Host} {fuel : Nat} {argv : List CStr} {o : Output}
    (h : main host fuel argv = .ok o) :
    ∃ st key dm ev sig, readArgs host argv = .ok st ∧ mainKey host fuel st.args = .ok key ∧
      mainDm host st.args key (makeEventFromArgs host.clock st.ev st.args) = .ok dm ∧
      mainId host fuel st.args { dm with pubkey := key.pubkey } = .ok ev ∧
      o.ev = { ev with sig := sig } ∧ o.out = (printed o.ev).line o.envelope := by
  obtain ⟨st, hargs, h⟩ := bind_eq_ok h
  obtain ⟨key, hkey, h⟩ := bind_eq_ok h
  obtain ⟨dm, hdm, h⟩ := bind_eq_ok h
  obtain ⟨ev, hid, h⟩ := bind_eq_ok h
  obtain ⟨signed, hsign, hprint⟩ := bind_eq_ok h
  obtain ⟨hev, hout⟩ := main_print_ok hprint
  obtain ⟨-, sig, -, rfl⟩ := main_sign_ok hsign
  exact ⟨st, key, dm, ev, sig, hargs, hkey, hdm, hid, hev, by rw [hev]; exact hout⟩

/-- A run that prints an event has hashed its text, kept its time and printed its line. -/
theorem main_ok {host : Host} {fuel : Nat} {argv : List CStr} {o : Output}
    (h : main host fuel argv = .ok o) :
    HasId host.crypto.sha256 o.ev ∧ o.ev.createdAt = eventTime host argv ∧
      o.out = (printed o.ev).line o.envelope := by
  obtain ⟨st, key, dm, ev, sig, hargs, -, hdm, hid, hev, hout⟩ := steps_of_main h
  obtain ⟨extra, hgenerate, -⟩ := main_id_ok hid
  obtain ⟨hhashed, htime⟩ := generate_event_id_has_id hgenerate
  obtain ⟨content, kind, rfl⟩ := main_dm_ok hdm
  refine ⟨?_, ?_, hout⟩
  · rw [hev]
    exact ⟨hhashed.hashed_eq, hhashed.id_eq⟩
  · rw [hev]
    show ev.createdAt = _
    rw [htime]
    exact make_event_from_args_time (read_args_ok hargs)

/-- The text a reader of the printed line hashes to check the id. -/
def Printed.hashable (t : Printed) : Bytes :=
  commitment t.pubkey t.createdAt t.kind t.tags t.content

/-- What is printed is what was hashed exactly when the time has at most 15 digits. -/
theorem hashable_eq_iff (ev : NostrEvent) :
    (printed ev).hashable = commitmentText ev ↔ ev.createdAt.toNat < 10 ^ 15 := by
  rw [← time_text_eq_decimal_iff]
  constructor
  · intro h
    -- the two texts differ in nothing but the time, so it can be peeled out of them
    have hfront := List.append_cancel_left (List.append_cancel_left (List.append_cancel_left h))
    exact (List.append_cancel_right hfront).symm
  · intro h
    show commitment _ (decimal ev.createdAt.toNat) _ _ _ = _
    rw [commitmentText, commitmentTextBy, h]
    rfl

/-- The printed id is the hash of the printed texts, and these are the texts that were hashed,
exactly when the time of the event has at most 15 digits. -/
theorem main_prints_what_it_hashed_iff (host : Host) (fuel : Nat) (argv : List CStr) (o : Output)
    (h : main host fuel argv = .ok o) :
    o.out = (printed o.ev).line o.envelope ∧
      (((printed o.ev).id = hexText (host.crypto.sha256 (printed o.ev).hashable).1 ∧
          (printed o.ev).hashable = hashed o.ev) ↔
        (eventTime host argv).toNat < 10 ^ 15) := by
  obtain ⟨hid, htime, hout⟩ := main_ok h
  refine ⟨hout, ?_⟩
  rw [hid.hashed_eq, ← htime]
  constructor
  · exact fun hagree => (hashable_eq_iff o.ev).mp hagree.2
  · intro hdigits
    have hsame := (hashable_eq_iff o.ev).mpr hdigits
    refine ⟨?_, hsame⟩
    show hexText o.ev.id.1 = _
    rw [hid.id_eq, hid.hashed_eq, hsame]

/-! ### A note by the sample key -/

/-- An argument. -/
def arg (s : String) : CStr :=
  CStr.ofBytes (ascii s)

/-- `--created-at`, `--content` and `--sec`. -/
def sampleArgv (time : String) : List CStr :=
  [arg "--created-at", arg time, arg "--content", arg "hello", arg "--sec",
    arg "0000000000000000000000000000000000000000000000000000000000000003"]

def sampleHost : Host where
  toEnv := sampleEnv
  clock := 0
  errno := 0
  einval := false
  execvp _ := false

/-- The note that is hashed. -/
def sampleHashed (time : String) : NostrEvent :=
  { NostrEvent.zero with
    pubkey := samplePubkey, content := arg "hello", createdAt := parseNum (arg time), kind := 1 }

/-- What is read from these arguments. -/
def sampleParsed (time : String) : ParseState where
  args := { Args.zero with
    createdAt := parseNum (arg time), flags := { Args.zero.flags with createdAt := true },
    content := some (arg "hello"),
    sec := some (arg "0000000000000000000000000000000000000000000000000000000000000003") }
  ev := NostrEvent.zero
  hasAddedTags := false
  errno := 0

/-- These arguments are read wherever they come last. -/
theorem parses_sample {time : String} {st : ParseState} (hst : st.errno = 0)
    (h : strtolErrno false (arg time).bytes 0 = 0) :
    Parses false (sampleArgv time) st { st with args := { st.args with
      createdAt := parseNum (arg time), flags := { st.args.flags with createdAt := true },
      content := some (arg "hello"),
      sec := some (arg "0000000000000000000000000000000000000000000000000000000000000003") } } := by
  have hcreated : readOption (arg "--created-at") = some .createdAt := rfl
  have hcontent : readOption (arg "--content") = some .content := rfl
  have hsec : readOption (arg "--sec") = some .sec := rfl
  have htime : parseOperand false st .createdAt (arg time) = .ok { st with args := { st.args with
      createdAt := parseNum (arg time), flags := { st.args.flags with createdAt := true } } } := by
    simp [parseOperand, parseNumber, hst, h, einvalCode, bind, Except.bind, pure, Except.pure]
  exact .operand hcreated rfl htime (.operand hcontent rfl rfl (.operand hsec rfl rfl (.done _)))

/-- A vector that is accepted and has a content is read. -/
theorem read_args_eq {argv : List CStr} {st : ParseState} {content : CStr} (hargv : argv ≠ [])
    (h : Parses false argv ⟨Args.zero, NostrEvent.zero, false, 0⟩ st)
    (hcontent : st.args.content = some content) : readArgs sampleHost argv = .ok st := by
  have hparse : parseArgs sampleHost.einval sampleHost.errno argv = .ok st := by
    have hloop : parseLoop sampleHost.einval argv
        ⟨Args.zero, NostrEvent.zero, false, sampleHost.errno⟩ = .ok st := parse_loop_of_parses h
    rw [parseArgs, hloop]
    show Except.ok { st with args := { st.args with content := some (st.args.content.getD _) } } = _
    rw [hcontent, Option.getD_some, ← hcontent]
  have hinit : initSecpContext sampleHost.crypto sampleHost.random = true := rfl
  have hsub : trySubcommand sampleHost argv = .ok () := by
    cases argv with
    | nil => rfl
    | cons sub rest => exact if_neg fun h => Bool.false_ne_true h.2.2
  simp only [readArgs, hargv, hinit, hsub, hparse, if_false, not_true_eq_false, bind, Except.bind,
    Except.mapError]

/-- The sample line is read. -/
theorem read_sample {time : String} (h : strtolErrno false (arg time).bytes 0 = 0) :
    readArgs sampleHost (sampleArgv time) = .ok (sampleParsed time) :=
  read_args_eq (List.cons_ne_nil _ _) (parses_sample rfl h) rfl

/-- The text of the sample key's secret. -/
def sampleSec : CStr :=
  arg "0000000000000000000000000000000000000000000000000000000000000003"

/-- The sample key is a secret key. -/
theorem decode_sample_sec : decodeKey sampleCrypto sampleSec = some sampleKey := by
  have hsecret : hexDecodeBlock 32 sampleSec = some sampleSecret := rfl
  simp [decodeKey, hsecret, create_sample_key]

/-- The event that is printed. -/
def sampleSigned (time : String) (sig : Block 64) : NostrEvent :=
  { sampleHashed time with id := sampleSha256 (commitmentText (sampleHashed time)), sig := sig }

/-- A text that fits the buffer has tags and a content that fit it. -/
theorem parts_of_text_fit {ev : NostrEvent} {content : Bytes}
    (h : (textWith ev content).length < bufferSize) :
    (tagsText ev).length < bufferSize ∧ content.length < bufferSize := by
  simp only [textWith, commitment, List.length_append] at h
  constructor <;> omega

/-- Where the commitment fits, so do its tags and its content. -/
theorem parts_of_commitment_fit {ev : NostrEvent} (h : (commitmentText ev).length < bufferSize) :
    (tagsText ev).length < bufferSize ∧ (quoted ev.content.counted).length < bufferSize :=
  parts_of_text_fit h

/-- An event whose text is short enough is printed, whatever its id and its signature are. -/
theorem print_event_of_room {ev : NostrEvent} (htags : ev.TagsDefined)
    (h : (commitmentText ev).length < bufferSize) (id : Block 32) (sig : Block 64)
    (envelope : Bool) :
    printEvent { ev with id := id, sig := sig } envelope =
      some (true, (printed { ev with id := id, sig := sig }).line envelope) := by
  obtain ⟨hfit, hcontent⟩ := parts_of_commitment_fit h
  exact print_event_eq { ev with id := id, sig := sig } envelope htags hfit hcontent

/-- An event with a new id can be printed. -/
theorem print_generated {sha256 : Bytes → Block 32} {ev ev' : NostrEvent}
    (h : generateEventId sha256 ev = some (true, ev')) (id : Block 32) (sig : Block 64)
    (envelope : Bool) :
    printEvent { ev' with id := id, sig := sig } envelope =
      some (true, (printed { ev' with id := id, sig := sig }).line envelope) := by
  obtain ⟨htags, hroom, rfl⟩ := generate_event_id_some h
  exact print_event_of_room htags hroom id sig envelope

/-- With the sample key, without encryption and without a mined id, the program prints the note
it was asked for if the libraries sign its id. -/
theorem main_note {argv : List CStr} {st : ParseState} (note : NostrEvent) {text : Bytes}
    {sig : Block 64} (hread : readArgs sampleHost argv = .ok st)
    (hsec : st.args.sec = some sampleSec) (hencrypt : st.args.flags.encrypt = false)
    (hmine : ¬ (st.args.flags.difficulty = true ∧ ¬ st.args.flags.minePubkey = true))
    (hnote :
      { makeEventFromArgs sampleHost.clock st.ev st.args with pubkey := samplePubkey } = note)
    (hdefined : note.TagsDefined) (htext : commitmentText note = text)
    (hlen : text.length < bufferSize)
    (hsig : sampleSign (sampleSha256 text) samplePair (.zeros 32) = some sig) :
    ∃ o, main sampleHost 0 argv = .ok o ∧
      o.ev = { note with id := sampleSha256 text, sig := sig } := by
  subst htext
  have hcrypto : sampleHost.crypto = sampleCrypto := rfl
  have hkey : mainKey sampleHost 0 st.args = .ok sampleKey := by
    simp only [mainKey, hsec, hcrypto, decode_sample_sec]
  have hdm : mainDm sampleHost st.args sampleKey
      (makeEventFromArgs sampleHost.clock st.ev st.args) = .ok _ := if_neg (by simp [hencrypt])
  have hid : mainId sampleHost 0 st.args note =
      .ok { note with id := sampleSha256 (commitmentText note) } := by
    have hgenerate : generateEventId sampleHost.crypto.sha256 note = _ :=
      generate_event_id_eq sampleSha256 hdefined hlen
    simp only [mainId, if_neg hmine, hgenerate]
  have hsign : mainSign sampleHost sampleKey
      { note with id := sampleSha256 (commitmentText note) } =
      .ok { note with id := sampleSha256 (commitmentText note), sig := sig } := by
    have haux : sampleHost.random.aux = some (.zeros 32) := rfl
    have hschnorr : sampleCrypto.schnorrsigSign32 = sampleSign := rfl
    have hpair : sampleKey.pair = samplePair := rfl
    simp only [mainSign, hcrypto, signEvent, makeSig, haux, hschnorr, hpair, hsig,
      Option.bind_eq_bind, Option.bind_some]
  have hprint := print_event_of_room hdefined hlen (sampleSha256 (commitmentText note)) sig
    st.args.flags.envelope
  subst hnote
  exact ⟨_, main_of_steps hread hkey hdm hid hsign (by rw [mainPrint, hprint]), rfl⟩

/-- The program prints the sample note. -/
theorem main_sample {time : String} {text : Bytes} {sig : Block 64}
    (herrno : strtolErrno false (arg time).bytes 0 = 0)
    (htext : commitmentText (sampleHashed time) = text) (hlen : text.length < bufferSize)
    (hsig : sampleSign (sampleSha256 text) samplePair (.zeros 32) = some sig) :
    ∃ o, main sampleHost 0 (sampleArgv time) = .ok o ∧ o.ev = sampleSigned time sig := by
  subst htext
  exact main_note (sampleHashed time) (read_sample herrno) rfl rfl
    (by simp [sampleParsed, Args.zero]) rfl nofun rfl hlen hsig

/-- The commitments of the sample events. -/
theorem hashed_sample :
    commitmentText (sampleHashed "1688794190") = sampleText "1688794190" "[]" ∧
      commitmentText (sampleHashed "1000000000000000") = sampleText "100000000000000" "[]" := by
  exact ⟨rfl, rfl⟩

/-- They fit into the buffer. -/
theorem sample_text_room :
    (sampleText "1688794190" "[]").length < bufferSize ∧
      (sampleText "100000000000000" "[]").length < bufferSize := by
  exact ⟨by decide +kernel, by decide +kernel⟩

/-- The libraries sign the sample note. -/
theorem sign_sample_note :
    ∃ sig, sampleSign (sampleSha256 (sampleText "1688794190" "[]")) samplePair
      (.zeros 32) = some sig := by
  rw [sampleSign, if_neg (by simp), if_pos rfl]
  exact ⟨_, rfl⟩

/-- A note with a time of ten digits is printed, and its texts are those that were hashed. -/
theorem main_prints_what_it_hashed_iff_hello :
    ∃ o, main sampleHost 0 (sampleArgv "1688794190") = .ok o ∧
      o.out = (printed o.ev).line o.envelope ∧
      (((printed o.ev).id = hexText (sampleSha256 (printed o.ev).hashable).1 ∧
          (printed o.ev).hashable = hashed o.ev) ↔
        (eventTime sampleHost (sampleArgv "1688794190")).toNat < 10 ^ 15) := by
  obtain ⟨sig, hsig⟩ := sign_sample_note
  obtain ⟨o, hmain, -⟩ := main_sample rfl hashed_sample.1 sample_text_room.1 hsig
  exact ⟨o, hmain, main_prints_what_it_hashed_iff sampleHost 0 _ o hmain⟩

/-- A time of sixteen digits is printed whole and hashed without its last digit, so the printed id
is not the hash of the printed texts. -/
theorem main_cuts_long_time :
    ∃ o, main sampleHost 0 (sampleArgv "1000000000000000") = .ok o ∧
      (printed o.ev).id ≠ hexText (sampleSha256 (printed o.ev).hashable).1 := by
  have hsig : ∃ sig, sampleSign (sampleSha256 (sampleText "100000000000000" "[]")) samplePair
      (.zeros 32) = some sig :=
    ⟨_, by simp [sampleSign]; rfl⟩
  obtain ⟨sig, hsig⟩ := hsig
  obtain ⟨o, hmain, hev⟩ :=
    main_sample rfl hashed_sample.2 sample_text_room.2 hsig
  refine ⟨o, hmain, ?_⟩
  have hprinted : (printed (sampleHashed "1000000000000000")).hashable =
      sampleText "1000000000000000" "[]" := rfl
  have hid : (printed o.ev).id =
      hexText (sampleSha256 (commitmentText (sampleHashed "1000000000000000"))).1 := by
    rw [hev]
    rfl
  have hhashable : (printed o.ev).hashable = sampleText "1000000000000000" "[]" := by
    rw [hev, ← hprinted]
    rfl
  rw [hid, hhashable, hashed_sample.2]
  decide +kernel

end Gnostr
