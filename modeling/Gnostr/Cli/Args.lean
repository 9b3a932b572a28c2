import Gnostr.Event.Keys
import Gnostr.Wire.Text

/-!
# The command line

`parse_args` of `gnostr.c`. The vector is read from the left; every option takes none, one or two
of the arguments behind it. Options that end the program at once are found anywhere, and an
argument that comes last is refused before it is looked at, whether it needs an operand or not.

Numbers go through `strtol`, whose `errno` is never cleared: `parse_num` refuses a number only
when `errno` is `EINVAL` afterwards. Whether `strtol` sets it for a text without digits is up to
the C library (`einval`).
-/

namespace Gnostr

open Wire

/-! ## Numbers -/

/-- `EINVAL` and `ERANGE`. -/
def einvalCode : Nat :=
  22

def erangeCode : Nat :=
  34

/-- `strtol` in base ten: `errno` after the call. -/
def strtolErrno (einval : Bool) (arg : Bytes) (errno : Nat) : Nat :=
  if (numeral arg).2.isEmpty then (if einval then einvalCode else errno)
  else if strtol arg = numeralValue arg then errno
  else erangeCode

/-- `parse_num`: the number stored. -/
def parseNum (arg : CStr) : UInt64 :=
  UInt64.ofInt (strtol arg.bytes)

/-! ## Options -/

/-- The options. -/
inductive Opt where
  | help
  | version
  | about
  | hash
  | sec
  | createdAt
  | kind
  | envelope
  | tags
  | e
  | p
  | t
  | tag
  | minePubkey
  | pow
  | dm
  | content
  deriving DecidableEq

/-- How they are written. -/
def optionNames : List (String × Opt) :=
  [("--help", .help), ("-h", .help), ("--version", .version), ("-v", .version),
    ("--about", .about), ("-a", .about), ("--hash", .hash), ("--sec", .sec), ("-s", .sec),
    ("--created-at", .createdAt), ("--kind", .kind), ("--envelope", .envelope), ("--tags", .tags),
    ("-e", .e), ("-p", .p), ("-t", .t), ("--tag", .tag), ("--mine-pubkey", .minePubkey),
    ("--pow", .pow), ("--dm", .dm), ("--content", .content)]

/-- The option an argument is, by comparison with every name. -/
def readOption (arg : CStr) : Option Opt :=
  (optionNames.find? fun name => ascii name.1 = arg.bytes).map Prod.snd

/-- `args->flags`, bit by bit. -/
structure Flags where
  createdAt : Bool
  kind : Bool
  envelope : Bool
  encrypt : Bool
  difficulty : Bool
  minePubkey : Bool

/-- `struct args`. -/
structure Args where
  flags : Flags
  kind : Int32
  difficulty : Int32
  encryptTo : Block 32
  sec : Option CStr
  tags : Option CStr
  content : Option CStr
  createdAt : UInt64

/-- What `parse_args` has read so far. -/
structure ParseState where
  args : Args
  ev : NostrEvent
  hasAddedTags : Bool
  errno : Nat

/-- How the program ends while it reads its arguments: with one of its notices, with a shell
command run in its place, or with a message and the usage text. -/
inductive ParseStop where
  | usage
  | version
  | about
  | system (command : Bytes)
  | undefined
  | rejected (message : Bytes)

/-- `openssl_hash`: the command is put together in 128 bytes. -/
def opensslHash (value : Option CStr) : ParseStop :=
  let digest := ascii "openssl dgst -sha256 | sed 's/SHA2-256(stdin)= //g'"
  match value with
  | none => .system (ascii "0>/dev/null|" ++ digest)
  | some value =>
      let command := ascii "echo " ++ (value.bytes ++ (ascii "|" ++ digest))
      if 128 < command.length + 1 then .undefined else .system command

/-- The options that end the program, given the argument behind them. -/
def exitOption (arg : CStr) (next : Option CStr) : Option ParseStop :=
  match readOption arg with
  | some .help => some .usage
  | some .version => some .version
  | some .about => some .about
  | some .hash => some (opensslHash next)
  | _ => none

/-- Add a tag on behalf of an option. -/
def addTag (st : ParseState) (t1 t2 : CStr) (message : Bytes) : Except ParseStop ParseState :=
  match nostrAddTag st.ev t1 t2 with
  | none => .error (.rejected message)
  | some ev => .ok { st with ev := ev, hasAddedTags := true }

/-- A message that quotes arguments. -/
def quotingOne (front : String) (arg : CStr) (back : String) : Bytes :=
  ascii front ++ (arg.bytes ++ ascii back)

/-- `-e`, `-p` and `-t`. -/
def addShorthand (st : ParseState) (name : String) (arg : CStr) : Except ParseStop ParseState :=
  addTag st (CStr.ofBytes (ascii name)) arg (ascii "couldn't add " ++ (ascii name ++ ascii " tag"))

/-- A number behind an option, refused with a message. -/
def parseNumber (einval : Bool) (st : ParseState) (arg : CStr) (message : Bytes) :
    Except ParseStop (UInt64 × ParseState) :=
  let errno := strtolErrno einval arg.bytes st.errno
  if errno = einvalCode then .error (.rejected message)
  else .ok (parseNum arg, { st with errno := errno })

/-- An option with one operand. -/
def parseOperand (einval : Bool) (st : ParseState) (opt : Opt) (arg : CStr) :
    Except ParseStop ParseState :=
  match opt with
  | .sec => .ok { st with args := { st.args with sec := some arg } }
  | .createdAt => do
      let (n, st) ← parseNumber einval st arg (ascii "created-at must be a unix timestamp\n")
      return { st with args := { st.args with
        createdAt := n, flags := { st.args.flags with createdAt := true } } }
  | .kind => do
      let (n, st) ← parseNumber einval st arg
        (quotingOne "kind should be a number, got '" arg "'\n")
      return { st with args := { st.args with
        kind := n.toUInt32.toInt32, flags := { st.args.flags with kind := true } } }
  | .tags =>
      if st.args.flags.difficulty then
        .error (.rejected (ascii "can't combine --tags and --pow (yet)\n"))
      else if st.hasAddedTags then
        .error (.rejected (ascii "can't combine --tags and --tag (yet)"))
      else .ok { st with args := { st.args with tags := some arg } }
  | .e => addShorthand st "e" arg
  | .p => addShorthand st "p" arg
  | .t => addShorthand st "t" arg
  | .pow =>
      if st.args.tags.isSome then
        .error (.rejected (ascii "can't combine --tags and --pow (yet)\n"))
      else do
        let (n, st) ← parseNumber einval st arg
          (quotingOne "could not parse difficulty as number: '" arg "'\n")
        return { st with args := { st.args with
          difficulty := n.toUInt32.toInt32, flags := { st.args.flags with difficulty := true } } }
  | .dm =>
      match hexDecodeBlock 32 arg with
      | none => .error (.rejected (ascii "could not decode encrypt-to pubkey"))
      | some encryptTo => .ok { st with args := { st.args with
          encryptTo := encryptTo, flags := { st.args.flags with encrypt := true } } }
  | .content => .ok { st with args := { st.args with content := some arg } }
  -- the others take no operand or two
  | _ => .ok st

/-- `--envelope`. -/
def ParseState.setEnvelope (st : ParseState) : ParseState :=
  { st with args := { st.args with flags := { st.args.flags with envelope := true } } }

/-- `--mine-pubkey`. -/
def ParseState.setMinePubkey (st : ParseState) : ParseState :=
  { st with args := { st.args with flags := { st.args.flags with minePubkey := true } } }

/-- `--tag`, which takes two operands. -/
def parseTag (st : ParseState) (arg : CStr) (arg2 : Option CStr) : Except ParseStop ParseState :=
  if st.args.tags.isSome then
    .error (.rejected (ascii "can't combine --tag and --tags (yet)"))
  else
    match arg2 with
    | none => .error (.rejected (ascii "expected two arguments to --tag\n"))
    | some arg2 => addTag st arg arg2 (quotingOne "couldn't add tag '" arg "' '" ++
        (arg2.bytes ++ ascii "'\n"))

/-- The loop of `parse_args`. -/
def parseLoop (einval : Bool) : List CStr → ParseState → Except ParseStop ParseState
  | [], st => .ok st
  | arg :: rest, st =>
      match exitOption arg rest.head? with
      | some stop => .error stop
      | none =>
          match rest with
          | [] => .error (.rejected (quotingOne "expected argument: '" arg "'\n"))
          | next :: rest =>
              match readOption arg with
              | none => .error (.rejected (quotingOne "unexpected argument '" arg "'\n"))
              | some .envelope => parseLoop einval (next :: rest) st.setEnvelope
              | some .minePubkey => parseLoop einval (next :: rest) st.setMinePubkey
              | some .tag =>
                  match rest with
                  | [] => parseTag st next none
                  | value :: rest => do
                      let st ← parseTag st next (some value)
                      parseLoop einval rest st
              | some opt => do
                  let st ← parseOperand einval st opt next
                  parseLoop einval rest st

/-- The arguments before anything is read. -/
def Args.zero : Args where
  flags := ⟨false, false, false, false, false, false⟩
  kind := 0
  difficulty := 0
  encryptTo := Block.first 32 []
  sec := none
  tags := none
  content := none
  createdAt := 0

/-- The event before anything is read. -/
def NostrEvent.zero : NostrEvent where
  id := Block.first 32 []
  pubkey := Block.first 32 []
  sig := Block.first 64 []
  content := CStr.ofBytes []
  createdAt := 0
  kind := 0
  explicitTags := none
  tags := []

/-- `parse_args` on the arguments behind the program's name. -/
def parseArgs (einval : Bool) (errno : Nat) (argv : List CStr) : Except ParseStop ParseState := do
  let st ← parseLoop einval argv ⟨Args.zero, NostrEvent.zero, false, errno⟩
  return { st with args := { st.args with
    content := some (st.args.content.getD (CStr.ofBytes [])) } }

/-! ## Accepted vectors -/

/-- The options with one operand. -/
def Opt.unary : Opt → Bool
  | sec | createdAt | kind | tags | e | p | t | pow | dm | content => true
  | _ => false

/-- `Parses einval argv st st'`: the vector is a sequence of options, each with its operands,
that lead from `st` to `st'`. -/
inductive Parses (einval : Bool) : List CStr → ParseState → ParseState → Prop where
  | done (st : ParseState) : Parses einval [] st st
  | envelope {arg next : CStr} {rest : List CStr} {st st' : ParseState}
      (hopt : readOption arg = some .envelope)
      (hrest : Parses einval (next :: rest) st.setEnvelope st') :
      Parses einval (arg :: next :: rest) st st'
  | minePubkey {arg next : CStr} {rest : List CStr} {st st' : ParseState}
      (hopt : readOption arg = some .minePubkey)
      (hrest : Parses einval (next :: rest) st.setMinePubkey st') :
      Parses einval (arg :: next :: rest) st st'
  | tag {arg t1 t2 : CStr} {rest : List CStr} {st mid st' : ParseState}
      (hopt : readOption arg = some .tag) (hread : parseTag st t1 (some t2) = .ok mid)
      (hrest : Parses einval rest mid st') : Parses einval (arg :: t1 :: t2 :: rest) st st'
  | operand {opt : Opt} {arg next : CStr} {rest : List CStr} {st mid st' : ParseState}
      (hopt : readOption arg = some opt) (hunary : opt.unary = true)
      (hread : parseOperand einval st opt next = .ok mid) (hrest : Parses einval rest mid st') :
      Parses einval (arg :: next :: rest) st st'

/-- An option that neither ends the program nor stands alone nor takes two operands takes one. -/
theorem unary_of_read {arg : CStr} {next : Option CStr} {opt : Opt}
    (hexit : exitOption arg next = none) (hopt : readOption arg = some opt)
    (henvelope : opt ≠ .envelope) (hmine : opt ≠ .minePubkey) (htag : opt ≠ .tag) :
    opt.unary = true := by
  cases opt <;> simp_all [exitOption, Opt.unary]

/-- The loop accepts only such vectors. -/
theorem parses_of_parse_loop {einval : Bool} {argv : List CStr} {st st' : ParseState}
    (h : parseLoop einval argv st = .ok st') : Parses einval argv st st' := by
  fun_induction parseLoop einval argv st with
  | case1 st => exact (Except.ok.inj h) ▸ .done st
  | case2 => cases h
  | case3 => cases h
  | case4 => cases h
  | case5 arg st next rest hopt hexit ih => exact .envelope hopt (ih h)
  | case6 arg st next rest hopt hexit ih => exact .minePubkey hopt (ih h)
  | case7 arg st next hopt hexit =>
      unfold parseTag at h
      split at h <;> cases h
  | case8 arg st next hopt value rest hexit ih =>
      obtain ⟨mid, hread, hrest⟩ := bind_eq_ok h
      exact .tag hopt hread (ih mid hrest)
  | case9 arg st next rest opt henvelope hmine htag hopt hexit ih =>
      obtain ⟨mid, hread, hrest⟩ := bind_eq_ok h
      exact .operand hopt (unary_of_read hexit hopt henvelope hmine htag) hread (ih mid hrest)

/-- And it accepts all of them. -/
theorem parse_loop_of_parses {einval : Bool} {argv : List CStr} {st st' : ParseState}
    (h : Parses einval argv st st') : parseLoop einval argv st = .ok st' := by
  induction h with
  | done st => rfl
  | envelope hopt _ ih =>
      rw [parseLoop.eq_def]
      simp only [exitOption, hopt, ih]
  | minePubkey hopt _ ih =>
      rw [parseLoop.eq_def]
      simp only [exitOption, hopt, ih]
  | tag hopt hread _ ih =>
      rw [parseLoop.eq_def]
      simp only [exitOption, hopt, hread, bind, Except.bind, ih]
  | @operand opt arg next rest st mid st' hopt hunary hread _ ih =>
      rw [parseLoop.eq_def]
      cases opt with
      | help | version | about | hash | envelope | tag | minePubkey => cases hunary
      | _ => simp only [exitOption, hopt, hread, bind, Except.bind, ih]

/-! ## What an option does -/

/-- The state after an operand that was accepted. -/
def applied (einval : Bool) (st : ParseState) (opt : Opt) (arg : CStr) : ParseState :=
  let errno := strtolErrno einval arg.bytes st.errno
  let tagged (name : String) : ParseState :=
    { st with
      ev := { st.ev with tags := st.ev.tags ++ [⟨[CStr.ofBytes (ascii name), arg]⟩] }
      hasAddedTags := true }
  match opt with
  | .sec => { st with args := { st.args with sec := some arg } }
  | .createdAt => { st with errno := errno, args := { st.args with
      createdAt := parseNum arg, flags := { st.args.flags with createdAt := true } } }
  | .kind => { st with errno := errno, args := { st.args with
      kind := (parseNum arg).toUInt32.toInt32, flags := { st.args.flags with kind := true } } }
  | .tags => { st with args := { st.args with tags := some arg } }
  | .e => tagged "e"
  | .p => tagged "p"
  | .t => tagged "t"
  | .pow => { st with errno := errno, args := { st.args with
      difficulty := (parseNum arg).toUInt32.toInt32,
      flags := { st.args.flags with difficulty := true } } }
  | .dm => { st with args := { st.args with
      encryptTo := (hexDecodeBlock 32 arg).getD (Block.first 32 []),
      flags := { st.args.flags with encrypt := true } } }
  | .content => { st with args := { st.args with content := some arg } }
  | _ => st

/-- A tag that is added stands last. -/
theorem add_tag_ok {st st' : ParseState} {t1 t2 : CStr} {message : Bytes}
    (h : addTag st t1 t2 message = .ok st') :
    st' = { st with
      ev := { st.ev with tags := st.ev.tags ++ [⟨[t1, t2]⟩] }, hasAddedTags := true } := by
  unfold addTag at h
  split at h
  · cases h
  · next ev hev => rw [← Except.ok.inj h, nostr_add_tag_n_some hev]

/-- A number that is read changes nothing but `errno`. -/
theorem parse_number_ok {einval : Bool} {st st' : ParseState} {arg : CStr} {message : Bytes}
    {n : UInt64} (h : parseNumber einval st arg message = .ok (n, st')) :
    n = parseNum arg ∧ st' = { st with errno := strtolErrno einval arg.bytes st.errno } := by
  simp only [parseNumber] at h
  split at h
  · cases h
  · obtain ⟨hn, hst⟩ := Prod.mk.inj (Except.ok.inj h)
    exact ⟨hn.symm, hst.symm⟩

/-- What an operand does when it is accepted. -/
theorem parse_operand_ok {einval : Bool} {st st' : ParseState} {opt : Opt} {arg : CStr}
    (h : parseOperand einval st opt arg = .ok st') : st' = applied einval st opt arg := by
  cases opt with
  | createdAt =>
      obtain ⟨⟨n, mid⟩, hnumber, hrest⟩ := bind_eq_ok h
      obtain ⟨rfl, rfl⟩ := parse_number_ok hnumber
      exact (Except.ok.inj hrest).symm
  | kind =>
      obtain ⟨⟨n, mid⟩, hnumber, hrest⟩ := bind_eq_ok h
      obtain ⟨rfl, rfl⟩ := parse_number_ok hnumber
      exact (Except.ok.inj hrest).symm
  | pow =>
      simp only [parseOperand] at h
      split_ifs at h
      obtain ⟨⟨n, mid⟩, hnumber, hrest⟩ := bind_eq_ok h
      obtain ⟨rfl, rfl⟩ := parse_number_ok hnumber
      exact (Except.ok.inj hrest).symm
  | tags =>
      simp only [parseOperand] at h
      split_ifs at h
      exact (Except.ok.inj h).symm
  | dm =>
      simp only [parseOperand] at h
      split at h
      · cases h
      · next encryptTo hdecode =>
        rw [← Except.ok.inj h]
        simp [applied, hdecode]
  | e => exact add_tag_ok h
  | p => exact add_tag_ok h
  | t => exact add_tag_ok h
  | _ => exact (Except.ok.inj h).symm

/-- `--tag` adds its tag. -/
theorem parse_tag_ok {st st' : ParseState} {t1 t2 : CStr}
    (h : parseTag st t1 (some t2) = .ok st') :
    st' = { st with
      ev := { st.ev with tags := st.ev.tags ++ [⟨[t1, t2]⟩] }, hasAddedTags := true } := by
  unfold parseTag at h
  split at h
  · cases h
  · exact add_tag_ok h

/-! ## The operand that counts -/

/-- The operand of the last occurrence of an option. -/
def lastOperand (wanted : Opt) : List CStr → Option CStr
  | [] => none
  | [_] => none
  | arg :: next :: rest =>
      match readOption arg with
      | some .envelope | some .minePubkey => lastOperand wanted (next :: rest)
      | some .tag =>
          match rest with
          | [] => none
          | _ :: rest => lastOperand wanted rest
      | some opt =>
          (lastOperand wanted rest).or (if opt = wanted then some next else none)
      | none => none

/-- Options without an operand are passed over. -/
theorem last_operand_flag {wanted opt : Opt} {arg next : CStr} {rest : List CStr}
    (hopt : readOption arg = some opt) (hflag : opt = .envelope ∨ opt = .minePubkey) :
    lastOperand wanted (arg :: next :: rest) = lastOperand wanted (next :: rest) := by
  rcases hflag with rfl | rfl <;> cases rest <;> simp [lastOperand, hopt]

/-- The operand of an option with one operand counts unless there is a later one. -/
theorem last_operand_unary {wanted opt : Opt} {arg next : CStr} {rest : List CStr}
    (hopt : readOption arg = some opt) (hunary : opt.unary = true) :
    lastOperand wanted (arg :: next :: rest) =
      (lastOperand wanted rest).or (if opt = wanted then some next else none) := by
  cases rest <;> cases opt <;> first | simp [Opt.unary] at hunary; done | simp [lastOperand, hopt]

/-- A setting that one option writes holds the operand of its last occurrence, or what it held
before. -/
theorem Parses.last {einval : Bool} {argv : List CStr} {st st' : ParseState} {β : Type}
    (get : Args → Option β) (wanted : Opt) (value : CStr → β)
    (henvelope : ∀ st : ParseState, get st.setEnvelope.args = get st.args)
    (hmine : ∀ st : ParseState, get st.setMinePubkey.args = get st.args)
    (hoperand : ∀ (st : ParseState) (opt : Opt) (arg : CStr),
      get (applied einval st opt arg).args = if opt = wanted then some (value arg) else get st.args)
    (h : Parses einval argv st st') :
    get st'.args = ((lastOperand wanted argv).map value).or (get st.args) := by
  induction h with
  | done st => rfl
  | envelope hopt _ ih => rw [last_operand_flag hopt (.inl rfl), ih, henvelope]
  | minePubkey hopt _ ih => rw [last_operand_flag hopt (.inr rfl), ih, hmine]
  | @tag arg t1 t2 rest st mid st' hopt hread _ ih =>
      rw [ih, parse_tag_ok hread]
      simp only [lastOperand, hopt]
  | @operand opt arg next rest st mid st' hopt hunary hread _ ih =>
      rw [ih, parse_operand_ok hread, hoperand, last_operand_unary hopt hunary]
      cases lastOperand wanted rest with
      | some later => rfl
      | none => by_cases hwanted : opt = wanted <;> simp [hwanted]

/-- The same for all of `parse_args`, which starts with nothing set. -/
theorem parse_args_last {einval : Bool} {errno : Nat} {argv : List CStr} {st : ParseState}
    {β : Type} (get : Args → Option β) (wanted : Opt) (value : CStr → β)
    (henvelope : ∀ st : ParseState, get st.setEnvelope.args = get st.args)
    (hmine : ∀ st : ParseState, get st.setMinePubkey.args = get st.args)
    (hoperand : ∀ (st : ParseState) (opt : Opt) (arg : CStr),
      get (applied einval st opt arg).args = if opt = wanted then some (value arg) else get st.args)
    (hcontent : ∀ (args : Args) (content : Option CStr),
      get { args with content := content } = get args)
    (hzero : get Args.zero = none) (h : parseArgs einval errno argv = .ok st) :
    get st.args = (lastOperand wanted argv).map value := by
  obtain ⟨mid, hloop, hrest⟩ := bind_eq_ok h
  have hlast := (parses_of_parse_loop hloop).last get wanted value henvelope hmine hoperand
  rw [← Except.ok.inj hrest]
  show get { mid.args with content := _ } = _
  rw [hcontent, hlast, hzero, Option.or_none]

/-- The time given so far. -/
def ParseState.time (st : ParseState) : Option UInt64 :=
  if st.args.flags.createdAt then some st.args.createdAt else none

/-- The time `parse_args` stores is the operand of the last `--created-at`. -/
theorem time_parse_args {einval : Bool} {errno : Nat} {argv : List CStr} {st : ParseState}
    (h : parseArgs einval errno argv = .ok st) :
    st.time = (lastOperand .createdAt argv).map parseNum :=
  parse_args_last (fun args => if args.flags.createdAt then some args.createdAt else none)
    .createdAt parseNum (fun _ => rfl) (fun _ => rfl) (fun st opt arg => by cases opt <;> rfl)
    (fun _ _ => rfl) rfl h

/-- The tags are those of the last `--tags`. -/
theorem tags_parse_args {einval : Bool} {errno : Nat} {argv : List CStr} {st : ParseState}
    (h : parseArgs einval errno argv = .ok st) : st.args.tags = lastOperand .tags argv := by
  have hlast := parse_args_last Args.tags .tags id (fun _ => rfl)
    (fun _ => rfl) (fun st opt arg => by cases opt <;> rfl) (fun _ _ => rfl) rfl h
  simpa using hlast

/-- The secret key is that of the last `--sec`. -/
theorem sec_parse_args {einval : Bool} {errno : Nat} {argv : List CStr} {st : ParseState}
    (h : parseArgs einval errno argv = .ok st) : st.args.sec = lastOperand .sec argv := by
  have hlast := parse_args_last Args.sec .sec id (fun _ => rfl)
    (fun _ => rfl) (fun st opt arg => by cases opt <;> rfl) (fun _ _ => rfl) rfl h
  simpa using hlast

/-- The difficulty an operand of `--pow` stands for. -/
def powValue (arg : CStr) : Int32 :=
  (parseNum arg).toUInt32.toInt32

/-- The difficulty is that of the last `--pow`, as a number. -/
theorem difficulty_parse_args {einval : Bool} {errno : Nat} {argv : List CStr} {st : ParseState}
    (h : parseArgs einval errno argv = .ok st) :
    (if st.args.flags.difficulty then some st.args.difficulty else none) =
      (lastOperand .pow argv).map powValue :=
  parse_args_last (fun args => if args.flags.difficulty then some args.difficulty else none)
    .pow powValue (fun _ => rfl) (fun _ => rfl) (fun st opt arg => by cases opt <;> rfl)
    (fun _ _ => rfl) rfl h

/-- The recipient an operand of `--dm` stands for. -/
def recipient (arg : CStr) : Block 32 :=
  (hexDecodeBlock 32 arg).getD (Block.first 32 [])

/-- The recipient is that of the last `--dm`, as far as it could be read. -/
theorem encrypt_parse_args {einval : Bool} {errno : Nat} {argv : List CStr} {st : ParseState}
    (h : parseArgs einval errno argv = .ok st) :
    (if st.args.flags.encrypt then some st.args.encryptTo else none) =
      (lastOperand .dm argv).map recipient :=
  parse_args_last (fun args => if args.flags.encrypt then some args.encryptTo else none)
    .dm recipient (fun _ => rfl) (fun _ => rfl) (fun st opt arg => by cases opt <;> rfl)
    (fun _ _ => rfl) rfl h

/-! ## The options one by one -/

/-- The options of a vector with their operands. -/
def groups : List CStr → List (Opt × List CStr)
  | [] => []
  | [_] => []
  | arg :: next :: rest =>
      match readOption arg with
      | some .envelope => (.envelope, []) :: groups (next :: rest)
      | some .minePubkey => (.minePubkey, []) :: groups (next :: rest)
      | some .tag =>
          match rest with
          | [] => []
          | value :: rest => (.tag, [next, value]) :: groups rest
      | some opt => (opt, [next]) :: groups rest
      | none => []

/-- The tag an option asks for. -/
def tagOf : Opt × List CStr → Option NostrTag
  | (.e, [arg]) => some ⟨[CStr.ofBytes (ascii "e"), arg]⟩
  | (.p, [arg]) => some ⟨[CStr.ofBytes (ascii "p"), arg]⟩
  | (.t, [arg]) => some ⟨[CStr.ofBytes (ascii "t"), arg]⟩
  | (.tag, [t1, t2]) => some ⟨[t1, t2]⟩
  | _ => none

/-- The tags a vector asks for, in order. -/
def requestedTags (argv : List CStr) : List NostrTag :=
  (groups argv).filterMap tagOf

/-- Whether `--mine-pubkey` is given. -/
def minesPubkey (argv : List CStr) : Bool :=
  (groups argv).any fun group => group.1 = .minePubkey

/-- An option with an operand takes the word behind it. -/
theorem groups_unary {opt : Opt} {arg next : CStr} {rest : List CStr}
    (hopt : readOption arg = some opt) (hunary : opt.unary = true) :
    groups (arg :: next :: rest) = (opt, [next]) :: groups rest := by
  cases rest <;> cases opt <;> first | simp [Opt.unary] at hunary; done | simp [groups, hopt]

/-- `--envelope` takes no word behind it. -/
theorem groups_envelope {arg next : CStr} {rest : List CStr}
    (hopt : readOption arg = some .envelope) :
    groups (arg :: next :: rest) = (.envelope, []) :: groups (next :: rest) := by
  cases rest <;> simp [groups, hopt]

/-- Nor does `--mine-pubkey`. -/
theorem groups_mine_pubkey {arg next : CStr} {rest : List CStr}
    (hopt : readOption arg = some .minePubkey) :
    groups (arg :: next :: rest) = (.minePubkey, []) :: groups (next :: rest) := by
  cases rest <;> simp [groups, hopt]

/-- `--tag` takes two. -/
theorem groups_tag {arg t1 t2 : CStr} {rest : List CStr} (hopt : readOption arg = some .tag) :
    groups (arg :: t1 :: t2 :: rest) = (.tag, [t1, t2]) :: groups rest := by
  simp [groups, hopt]

/-- An operand adds the tag its option asks for. -/
theorem event_applied (einval : Bool) (st : ParseState) (opt : Opt) (arg : CStr) :
    (applied einval st opt arg).ev =
      { st.ev with tags := st.ev.tags ++ (tagOf (opt, [arg])).toList } := by
  cases opt <;> simp [applied, tagOf]

/-- An accepted vector adds the tags it asks for to the event, and nothing else. -/
theorem Parses.event {einval : Bool} {argv : List CStr} {st st' : ParseState}
    (h : Parses einval argv st st') :
    st'.ev = { st.ev with tags := st.ev.tags ++ requestedTags argv } := by
  unfold requestedTags
  induction h with
  | done st => simp [groups]
  | envelope hopt _ ih =>
      rw [ih, groups_envelope hopt]
      rfl
  | minePubkey hopt _ ih =>
      rw [ih, groups_mine_pubkey hopt]
      rfl
  | tag hopt hread _ ih =>
      rw [ih, groups_tag hopt, parse_tag_ok hread]
      simp [tagOf]
  | operand hopt hunary hread _ ih =>
      rw [ih, groups_unary hopt hunary, parse_operand_ok hread, event_applied, List.filterMap_cons]
      cases tagOf _ with
      | none => simp
      | some tag => simp

/-- The options put nothing into the event but the tags they ask for. -/
theorem event_parse_args {einval : Bool} {errno : Nat} {argv : List CStr} {st : ParseState}
    (h : parseArgs einval errno argv = .ok st) :
    st.ev = { NostrEvent.zero with tags := requestedTags argv } := by
  obtain ⟨mid, hloop, hrest⟩ := bind_eq_ok h
  rw [← Except.ok.inj hrest]
  show mid.ev = _
  rw [(parses_of_parse_loop hloop).event]
  rfl

/-- A key is to be mined once one of the options says so. -/
theorem Parses.mine_pubkey {einval : Bool} {argv : List CStr} {st st' : ParseState}
    (h : Parses einval argv st st') :
    st'.args.flags.minePubkey = (st.args.flags.minePubkey || minesPubkey argv) := by
  unfold minesPubkey
  induction h with
  | done st => simp [groups]
  | envelope hopt _ ih =>
      rw [ih, groups_envelope hopt]
      simp [ParseState.setEnvelope]
  | minePubkey hopt _ ih =>
      rw [ih, groups_mine_pubkey hopt]
      simp [ParseState.setMinePubkey]
  | tag hopt hread _ ih =>
      rw [ih, groups_tag hopt, parse_tag_ok hread]
      simp
  | @operand opt arg next rest st mid st' hopt hunary hread _ ih =>
      have hsame : mid.args.flags.minePubkey = st.args.flags.minePubkey := by
        rw [parse_operand_ok hread]
        cases opt <;> rfl
      have hother : opt ≠ .minePubkey := fun heq => by simp [heq, Opt.unary] at hunary
      rw [ih, groups_unary hopt hunary, hsame]
      simp [hother]

/-- A key is mined exactly when the line says so. -/
theorem mine_pubkey_parse_args {einval : Bool} {errno : Nat} {argv : List CStr} {st : ParseState}
    (h : parseArgs einval errno argv = .ok st) :
    st.args.flags.minePubkey = minesPubkey argv := by
  obtain ⟨mid, hloop, hrest⟩ := bind_eq_ok h
  rw [← Except.ok.inj hrest]
  show mid.args.flags.minePubkey = _
  rw [(parses_of_parse_loop hloop).mine_pubkey]
  rfl

end Gnostr
