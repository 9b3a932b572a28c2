import Gnostr.Cli.Main

/-!
# The library's driver

`make_message` of `src/nostril/nostri.c`, which the web client and the library's own program call.
It repeats `main` of `gnostr.c` on arguments that were not parsed, writes the line into a buffer of
its caller and returns a status. The content may be `NULL` here, and the serialiser of strings then
writes nothing; the other functions of the file are those of `gnostr.c`.
-/

namespace Gnostr

open Wire

namespace Nostri

/-! ## Serialisers -/

/-- `cursor_push_jsonstr`, on a string or on `NULL`. -/
def cursorPushJsonstr (null : Bool) (str : CStr) : Push :=
  if null then Push.all [] else Gnostr.cursorPushJsonstr str

/-- `event_commitment`. -/
def eventCommitment (null : Bool) (ev : NostrEvent) : Mem → Nat → Option (Nat × Mem) :=
  commitWith (cursorPushJsonstr null ev.content) ev

/-- `generate_event_id`. -/
def generateEventId (sha256 : Bytes → Block 32) (null : Bool) (ev : NostrEvent) :
    Option (Bool × NostrEvent) :=
  hashWith (cursorPushJsonstr null ev.content) sha256 ev

/-- `mine_event`. -/
def mineEvent (sha256 : Bytes → Block 32) (null : Bool) :
    Nat → NostrEvent → Int32 → Except Exit NostrEvent :=
  mineWith (generateEventId sha256 null)

/-! ## The line -/

/-- `sprintf` into `str` and `strcat` of the result to `out`: neither looks at the size of its
buffer. -/
def append (out fragment : Bytes) : Except Exit Bytes :=
  if 1024 < fragment.length + 1 ∨ bufferSize < out.length + fragment.length + 1 then
    .error .undefined
  else .ok (out ++ fragment)

/-- The fragments printed before the content is serialised. -/
def frontFragments (t : Printed) : List Bytes :=
  [ascii "[\"EVENT\",", ascii "\x7b\"id\": \"" ++ (t.id ++ ascii "\","),
    ascii "\"pubkey\": \"" ++ (t.pubkey ++ ascii "\","),
    ascii "\"created_at\": " ++ (t.createdAt ++ ascii ","),
    ascii "\"kind\": " ++ (t.kind ++ ascii ","), ascii "\"tags\": " ++ (t.tags ++ ascii ",")]

/-- The fragments from the content on. -/
def backFragments (t : Printed) : List Bytes :=
  [ascii "\"content\": " ++ (t.content ++ ascii ","),
    ascii "\"sig\": \"" ++ (t.sig ++ ascii "\"\x7d"), ascii "]\n"]

/-- `print_event` with room for `room` bytes behind `*json`: the text written there, or nothing
when 0 is returned. -/
def printEvent (null : Bool) (ev : NostrEvent) (room : Nat) : Except Exit (Option Bytes) :=
  let t : Printed := {
    id := hexText ev.id.1
    pubkey := hexText ev.pubkey.1
    createdAt := decimal ev.createdAt.toNat
    kind := signedDecimal ev.kind.toInt
    tags := []
    content := []
    sig := hexText ev.sig.1 }
  match cursorPushTags ev (makeCursor (fun _ => 0) 0 bufferSize) with
  | none => .error .undefined
  | some (false, _) => .ok none
  | some (true, cur) => do
      let t := { t with tags := printfPrecision cur.text }
      let out ← (frontFragments t).foldlM append []
      let (ok, cur) := cursorPushJsonstr null ev.content (resetCursor cur)
      if !ok then return none
      let t := { t with content := printfPrecision cur.text }
      let out ← (backFragments t).foldlM append out
      if room < out.length + 1 then throw .undefined
      return some out

/-! ## The driver -/

/-- The key, once the context is there. -/
def messageKey (host : Host) (fuel : Nat) (args : Args) : Except Exit Key :=
  if ¬ initSecpContext host.crypto host.random then .error (.failed 2 [] [])
  else mainKey host fuel args

/-- The encrypted message when one was asked for. The length of the content is taken at once. -/
def messageDm (host : Host) (args : Args) (key : Key) (ev : NostrEvent) : Except Exit NostrEvent :=
  if args.flags.encrypt ∧ args.content.isNone then .error .undefined
  else mainDm host args key ev

/-- The id, mined when a difficulty was given for it. -/
def messageId (host : Host) (fuel : Nat) (args : Args) (ev : NostrEvent) : Except Exit NostrEvent :=
  if args.flags.difficulty ∧ ¬ args.flags.minePubkey then
    mineEvent host.crypto.sha256 args.content.isNone fuel ev args.difficulty
  else
    match generateEventId host.crypto.sha256 args.content.isNone ev with
    | none => .error .undefined
    | some (true, ev) => .ok ev
    | some (false, _) =>
        .error (.failed 5 (outOfSpace ++ ascii "could not generate event id\n") [])

/-- The line. -/
def messagePrint (args : Args) (ev : NostrEvent) (room : Nat) : Except Exit Output := do
  match ← printEvent args.content.isNone ev room with
  | some json => .ok ⟨ev, true, json⟩
  | none => .error (.failed 88 (ascii "buffer too small\n") [])

/-- `args->flags |= HAS_ENVELOPE`. -/
def withEnvelope (args : Args) : Args :=
  { args with flags := { args.flags with envelope := true } }

/-- `make_message`: the event and the text written to `*json` before 0 is returned, or another
end. -/
def makeMessage (host : Host) (fuel : Nat) (args : Args) (ev : NostrEvent) (room : Nat) :
    Except Exit Output := do
  let args := withEnvelope args
  let ev := makeEventFromArgs host.clock ev args
  let key ← messageKey host fuel args
  let ev ← messageDm host args key ev
  let ev ← messageId host fuel args { ev with pubkey := key.pubkey }
  let ev ← mainSign host key ev
  messagePrint args ev room

/-! ## What is written -/

/-- The text of the content, which may be `NULL`. -/
def contentText (null : Bool) (ev : NostrEvent) : Bytes :=
  if null then [] else quoted ev.content.counted

/-- The texts of an event. -/
def printed (null : Bool) (ev : NostrEvent) : Printed :=
  { Gnostr.printed ev with content := contentText null ev }

/-- The text that is hashed for an id. -/
def hashedText (null : Bool) (ev : NostrEvent) : Bytes :=
  textWith ev (contentText null ev)

/-- The content is written as `contentText` says. -/
theorem emits_push_jsonstr (null : Bool) (ev : NostrEvent) :
    Emits (cursorPushJsonstr null ev.content) (contentText null ev) := by
  cases null with
  | true => exact emits_nil
  | false => exact Gnostr.emits_push_jsonstr ev.content

/-- There is no zero byte in it. -/
theorem nul_not_mem_content (null : Bool) (ev : NostrEvent) : 0 ∉ contentText null ev := by
  cases null with
  | true => exact List.not_mem_nil
  | false => exact nul_not_mem_quoted ev.content.nul_not_mem_counted

/-- The id is the hash of the text, with or without a content. -/
theorem generates_event_id (sha256 : Bytes → Block 32) (null : Bool) :
    Generates (generateEventId sha256 null) sha256 (hashedText null) :=
  ⟨fun ev => hash_with_eq sha256 ev (emits_push_jsonstr null ev), fun _ _ => rfl⟩

/-- The pieces of the line in the order in which they are appended. -/
def fragments (t : Printed) : List Bytes :=
  frontFragments t ++ backFragments t

/-- The pieces make up the line in its envelope. -/
theorem flatten_fragments (t : Printed) : (fragments t).flatten = t.line true := by
  simp [fragments, frontFragments, backFragments, Printed.line, Printed.front, Printed.back]
  rfl

/-- Pieces are appended as long as each fits `str` and all of them fit `out`. -/
theorem fold_append {out : Bytes} (pieces : List Bytes) (hout : out.length + 1 ≤ bufferSize) :
    pieces.foldlM append out =
      if (∀ piece ∈ pieces, piece.length + 1 ≤ 1024) ∧
          out.length + pieces.flatten.length + 1 ≤ bufferSize then
        .ok (out ++ pieces.flatten)
      else .error .undefined := by
  induction pieces generalizing out with
  | nil => simp [hout, pure, Except.pure]
  | cons piece rest ih =>
      simp only [List.foldlM_cons, List.forall_mem_cons, List.flatten_cons, List.length_append]
      by_cases hpiece : piece.length + 1 ≤ 1024 ∧ out.length + piece.length + 1 ≤ bufferSize
      · have hfirst : append out piece = .ok (out ++ piece) := if_neg (by omega)
        have hrest := @ih (out ++ piece) (by rw [List.length_append]; exact hpiece.2)
        simp only [List.length_append, Nat.add_assoc, List.append_assoc] at hrest ⊢
        rw [hfirst]
        show rest.foldlM append (out ++ piece) = _
        rw [hrest]
        simp only [hpiece.1, true_and]
      · have hfirst : append out piece = .error .undefined := if_pos (by omega)
        rw [hfirst, if_neg (by omega)]
        rfl

end Nostri

end Gnostr
