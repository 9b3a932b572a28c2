import Gnostr.Cli.Args

/-!
# The grammar of the command line

What `parse_args` is to accept: a sequence of options, each with its operands, where every operand
passes the check of its option and options that exclude each other do not occur together. A vector
is read as such a sequence in one way at most (`delimited_args`), and `parse_args` follows the
reading option by option (`parse_group_iff`). It tests once, before it looks at an option, whether
anything stands behind it; so an option without operands is refused when it comes last.

The second part is about numbers. `parse_num` refuses a number because of `errno` alone, so it is
up to the operands whether the numbers stored are those that were given.
-/

namespace Gnostr

open Wire

/-! ## Options and operands -/

/-- The options that end the program. -/
def Opt.exits : Opt → Bool
  | help | version | about | hash => true
  | _ => false

/-- How many operands an option takes. -/
def Opt.arity : Opt → Nat
  | envelope | minePubkey => 0
  | tag => 2
  | _ => 1

/-- The options with a number behind them. -/
def Opt.isNumeric : Opt → Bool
  | createdAt | kind | pow => true
  | _ => false

/-- The options that add a tag. -/
def Opt.addsTag : Opt → Bool
  | e | p | t | tag => true
  | _ => false

/-- An option as it is written, with its operands. -/
@[ext]
structure Group where
  word : CStr
  opt : Opt
  operands : List CStr
  named : readOption word = some opt
  stays : opt.exits = false
  arity : operands.length = opt.arity

/-- The arguments of an option. -/
def Group.args (g : Group) : List CStr :=
  g.word :: g.operands

/-- The first operand. -/
def Group.operand (g : Group) : CStr :=
  g.operands.headD (CStr.ofBytes [])

/-- The second operand. -/
def Group.operand2 (g : Group) : CStr :=
  (g.operands.drop 1).headD (CStr.ofBytes [])

/-- `errno` behind some options. -/
def errnoAfter (einval : Bool) (errno : Nat) (gs : List Group) : Nat :=
  gs.foldl (fun errno g =>
    if g.opt.isNumeric then strtolErrno einval g.operand.bytes errno else errno) errno

/-- The checks an option has to pass behind other options. -/
@[mk_iff]
structure Group.Passes (einval : Bool) (errno : Nat) (before : List Group) (g : Group) : Prop where
  /-- `parse_num` accepts the number. -/
  number : g.opt.isNumeric = true →
    strtolErrno einval g.operand.bytes (errnoAfter einval errno before) ≠ einvalCode
  /-- `hex_decode` accepts the recipient. -/
  recipient : g.opt = .dm → (hexDecode g.operand.bytes 32).1 = true
  /-- No more than 32 tags are added. -/
  room : g.opt.addsTag = true → before.countP (fun g => g.opt.addsTag) < 32
  tagsAlone : g.opt = .tags → ∀ b ∈ before, b.opt ≠ .pow ∧ b.opt.addsTag = false
  powAlone : g.opt = .pow → ∀ b ∈ before, b.opt ≠ .tags
  tagAlone : g.opt = .tag → ∀ b ∈ before, b.opt ≠ .tags

/-- The vectors `parse_args` is to accept. -/
def Grammatical (einval : Bool) (errno : Nat) (argv : List CStr) : Prop :=
  ∃ gs : List Group, argv = gs.flatMap Group.args ∧
    ∀ before g after, gs = before ++ g :: after → g.Passes einval errno before

/-- An option says how many operands it has, so a vector is read in one way. -/
theorem delimited_args : Delimited Group.args := by
  intro g g' r s h
  obtain ⟨hword, hrest⟩ := List.cons.inj h
  have hopt : g.opt = g'.opt := by
    have hnamed := g.named
    rw [hword, g'.named] at hnamed
    exact (Option.some.inj hnamed).symm
  have hlength : g.operands.length = g'.operands.length := by rw [g.arity, g'.arity, hopt]
  obtain ⟨hoperands, hrest⟩ := List.append_inj hrest hlength
  exact ⟨Group.ext hword hopt hoperands, hrest⟩

/-! ## Option by option -/

/-- What the loop does with one option. -/
def parseGroup (einval : Bool) (st : ParseState) (g : Group) : Except ParseStop ParseState :=
  match g.opt with
  | .envelope => .ok st.setEnvelope
  | .minePubkey => .ok st.setMinePubkey
  | .tag => parseTag st g.operand (some g.operand2)
  | opt => parseOperand einval st opt g.operand

/-- What the state says about the options read so far. -/
structure ParseState.Follows (einval : Bool) (errno : Nat) (before : List Group)
    (st : ParseState) : Prop where
  errno_eq : st.errno = errnoAfter einval errno before
  tags_eq : st.ev.tags.length = before.countP fun g => g.opt.addsTag
  added_iff : st.hasAddedTags = true ↔ ∃ b ∈ before, b.opt.addsTag = true
  explicit_iff : st.args.tags.isSome = true ↔ ∃ b ∈ before, b.opt = .tags
  difficulty_iff : st.args.flags.difficulty = true ↔ ∃ b ∈ before, b.opt = .pow

/-- The state at the start follows from no group. -/
theorem follows_zero (einval : Bool) (errno : Nat) :
    ParseState.Follows einval errno [] ⟨Args.zero, NostrEvent.zero, false, errno⟩ := by
  refine ⟨rfl, rfl, ?_, ?_, ?_⟩ <;> simp [Args.zero]

/-- The state behind an option that was accepted. -/
def groupApplied (einval : Bool) (st : ParseState) (g : Group) : ParseState :=
  match g.opt with
  | .envelope => st.setEnvelope
  | .minePubkey => st.setMinePubkey
  | .tag => { st with
      ev := { st.ev with tags := st.ev.tags ++ [⟨[g.operand, g.operand2]⟩] }, hasAddedTags := true }
  | opt => applied einval st opt g.operand

/-- A group that is accepted does what `groupApplied` says. -/
theorem parse_group_ok {einval : Bool} {st st' : ParseState} {g : Group}
    (h : parseGroup einval st g = .ok st') : st' = groupApplied einval st g := by
  unfold parseGroup at h
  unfold groupApplied
  split at h
  · exact (Except.ok.inj h).symm
  · exact (Except.ok.inj h).symm
  · exact parse_tag_ok h
  · exact parse_operand_ok h

/-- Behind an accepted option, the state says the same about one option more. -/
theorem ParseState.Follows.applied {einval : Bool} {errno : Nat} {before : List Group}
    {st : ParseState} (h : st.Follows einval errno before) (g : Group) :
    (groupApplied einval st g).Follows einval errno (before ++ [g]) := by
  obtain ⟨herrno, htags, hadded, hexplicit, hdifficulty⟩ := h
  have hafter : errnoAfter einval errno (before ++ [g]) =
      if g.opt.isNumeric then strtolErrno einval g.operand.bytes st.errno else st.errno := by
    rw [herrno]
    unfold errnoAfter
    rw [List.foldl_append]
    rfl
  obtain ⟨word, opt, operands, named, stays, arity⟩ := g
  constructor
  · rw [hafter]
    cases opt <;> rfl
  · rw [List.countP_append, ← htags]
    cases opt <;> simp [groupApplied, Gnostr.applied, ParseState.setEnvelope,
      ParseState.setMinePubkey, Opt.addsTag]
  · cases opt <;> simp [groupApplied, Gnostr.applied, ParseState.setEnvelope,
      ParseState.setMinePubkey, Opt.addsTag, hadded, or_and_right, exists_or]
  · cases opt <;> simp [groupApplied, Gnostr.applied, ParseState.setEnvelope,
      ParseState.setMinePubkey, hexplicit, or_and_right, exists_or]
  · cases opt <;> simp [groupApplied, Gnostr.applied, ParseState.setEnvelope,
      ParseState.setMinePubkey, hdifficulty, or_and_right, exists_or]

/-- A number is refused only where `strtol` says that it is none. -/
theorem parse_number_ok_iff (einval : Bool) (st : ParseState) (arg : CStr) (message : Bytes) :
    (∃ result, parseNumber einval st arg message = .ok result) ↔
      strtolErrno einval arg.bytes st.errno ≠ einvalCode := by
  unfold parseNumber
  by_cases herrno : strtolErrno einval arg.bytes st.errno = einvalCode
  · simp [herrno]
  · simp [herrno]

/-- There is room for thirty-two tags. -/
theorem add_tag_ok_iff (st : ParseState) (t1 t2 : CStr) (message : Bytes) :
    (∃ st', addTag st t1 t2 message = .ok st') ↔ st.ev.tags.length < 32 := by
  unfold addTag nostrAddTag nostrAddTagN maxTags
  by_cases hroom : st.ev.tags.length < 32
  · rw [if_neg (by omega)]
    simp [hroom]
  · rw [if_pos (by omega)]
    simp [hroom]

/-- A block is read where `hexDecode` reads one. -/
theorem hex_decode_block_ok_iff (n : Nat) (arg : CStr) :
    (∃ block, hexDecodeBlock n arg = some block) ↔ (hexDecode arg.bytes n).1 = true := by
  unfold hexDecodeBlock
  split
  · next h => simp [h]
  · next h => simp [h]

/-- The loop accepts an option exactly if it passes its checks. -/
theorem parse_group_iff {einval : Bool} {errno : Nat} {before : List Group} {st : ParseState}
    (h : st.Follows einval errno before) (g : Group) :
    (∃ st', parseGroup einval st g = .ok st') ↔ g.Passes einval errno before := by
  obtain ⟨herrno, htags, hadded, hexplicit, hdifficulty⟩ := h
  have hbind : ∀ {α : Type} (x : Except ParseStop α) (f : α → ParseState),
      (∃ st', (do let a ← x; return f a) = .ok st') ↔ ∃ a, x = .ok a := by
    intro α x f
    cases x <;> simp [bind, Except.bind, pure, Except.pure]
  obtain ⟨word, opt, operands, named, stays, arity⟩ := g
  rw [Group.passes_iff, ← herrno, ← htags]
  cases opt with
  | help | version | about | hash => cases stays
  | envelope | minePubkey | sec | content =>
      simp [parseGroup, parseOperand, Opt.isNumeric, Opt.addsTag]
  | createdAt | kind =>
      simp only [parseGroup, parseOperand, hbind, parse_number_ok_iff]
      simp [Opt.isNumeric, Opt.addsTag]
  | e | p | t =>
      simp only [parseGroup, parseOperand, addShorthand, add_tag_ok_iff]
      simp [Opt.isNumeric, Opt.addsTag]
  | tags =>
      by_cases hpow : st.args.flags.difficulty = true
      · obtain ⟨b, hb, hopt⟩ := hdifficulty.mp hpow
        refine iff_of_false (by simp [parseGroup, parseOperand, hpow]) fun hpasses => ?_
        exact (hpasses.2.2.2.1 rfl b hb).1 hopt
      · by_cases htag : st.hasAddedTags = true
        · obtain ⟨b, hb, hopt⟩ := hadded.mp htag
          refine iff_of_false (by simp [parseGroup, parseOperand, hpow, htag]) fun hpasses => ?_
          rw [(hpasses.2.2.2.1 rfl b hb).2] at hopt
          cases hopt
        · refine iff_of_true (by simp [parseGroup, parseOperand, hpow, htag]) ?_
          have hno : ∀ b ∈ before, b.opt ≠ .pow ∧ b.opt.addsTag = false := fun b hb =>
            ⟨fun heq => hpow (hdifficulty.mpr ⟨b, hb, heq⟩),
              Bool.eq_false_iff.mpr fun heq => htag (hadded.mpr ⟨b, hb, heq⟩)⟩
          refine ⟨?_, ?_, ?_, fun _ => hno, ?_, ?_⟩
          all_goals exact fun hopt => by cases hopt
  | tag =>
      by_cases htag : st.args.tags.isSome = true
      · obtain ⟨b, hb, hopt⟩ := hexplicit.mp htag
        refine iff_of_false (by simp [parseGroup, parseTag, htag]) fun hpasses => ?_
        exact hpasses.2.2.2.2.2 rfl b hb hopt
      · have hno : ∀ b ∈ before, ¬ b.opt = .tags := fun b hb heq =>
          htag (hexplicit.mpr ⟨b, hb, heq⟩)
        simp only [parseGroup, parseTag, if_neg htag, add_tag_ok_iff]
        simpa [Opt.isNumeric, Opt.addsTag] using fun _ => hno
  | pow =>
      by_cases htag : st.args.tags.isSome = true
      · obtain ⟨b, hb, hopt⟩ := hexplicit.mp htag
        refine iff_of_false (by simp [parseGroup, parseOperand, htag]) fun hpasses => ?_
        exact hpasses.2.2.2.2.1 rfl b hb hopt
      · have hno : ∀ b ∈ before, ¬ b.opt = .tags := fun b hb heq =>
          htag (hexplicit.mpr ⟨b, hb, heq⟩)
        simp only [parseGroup, parseOperand, if_neg htag, hbind, parse_number_ok_iff]
        simpa [Opt.isNumeric, Opt.addsTag] using fun _ => hno
  | dm =>
      have hblock := hex_decode_block_ok_iff 32
        (Group.operand ⟨word, .dm, operands, named, stays, arity⟩)
      cases hdecode : hexDecodeBlock 32
          (Group.operand ⟨word, .dm, operands, named, stays, arity⟩) with
      | none =>
          have hno := mt hblock.mpr (by simp [hdecode])
          exact iff_of_false (by simp [parseGroup, parseOperand, hdecode])
            fun hpasses => hno (hpasses.2.1 rfl)
      | some block =>
          have hyes := hblock.mp ⟨block, hdecode⟩
          refine iff_of_true (by simp [parseGroup, parseOperand, hdecode]) ?_
          refine ⟨?_, fun _ => hyes, ?_, ?_, ?_, ?_⟩
          all_goals exact fun hopt => by cases hopt

/-- The loop accepts a sequence of options exactly if each of them passes its checks. -/
theorem parse_groups_iff {einval : Bool} {errno : Nat} {before : List Group} {st : ParseState}
    (h : st.Follows einval errno before) (gs : List Group) :
    (∃ st', gs.foldlM (parseGroup einval) st = .ok st') ↔
      ∀ front g after, gs = front ++ g :: after → g.Passes einval errno (before ++ front) := by
  induction gs generalizing before st with
  | nil => exact iff_of_true ⟨st, rfl⟩ fun front g after heq => by simp at heq
  | cons g gs ih =>
      rw [List.foldlM_cons]
      constructor
      · rintro ⟨st', hrun⟩ front g' after heq
        obtain ⟨mid, hmid, hrest⟩ := bind_eq_ok hrun
        have hfollows := h.applied g
        rw [← parse_group_ok hmid] at hfollows
        cases front with
        | nil =>
            obtain ⟨rfl, -⟩ := List.cons.inj heq
            rw [List.append_nil]
            exact (parse_group_iff h g).mp ⟨mid, hmid⟩
        | cons first front =>
            obtain ⟨rfl, htail⟩ := List.cons.inj heq
            have hpasses := (ih hfollows).mp ⟨st', hrest⟩ front g' after htail
            rwa [List.append_assoc] at hpasses
      · intro hpasses
        have hfirst := hpasses [] g gs rfl
        rw [List.append_nil] at hfirst
        obtain ⟨mid, hmid⟩ := (parse_group_iff h g).mpr hfirst
        have hfollows := h.applied g
        rw [← parse_group_ok hmid] at hfollows
        have hrest : ∀ front g' after, gs = front ++ g' :: after →
            g'.Passes einval errno (before ++ [g] ++ front) := by
          intro front g' after heq
          rw [List.append_assoc]
          exact hpasses (g :: front) g' after (by rw [heq]; rfl)
        obtain ⟨st', hrun⟩ := (ih hfollows).mpr hrest
        rw [hmid]
        exact ⟨st', hrun⟩

/-- A vector of the grammar is one whose options the loop accepts one after the other. -/
theorem grammatical_iff (einval : Bool) (errno : Nat) (argv : List CStr) :
    Grammatical einval errno argv ↔ ∃ (gs : List Group) (st : ParseState),
      argv = gs.flatMap Group.args ∧
        gs.foldlM (parseGroup einval) ⟨Args.zero, NostrEvent.zero, false, errno⟩ = .ok st := by
  constructor
  · rintro ⟨gs, hargs, hpasses⟩
    obtain ⟨st, hrun⟩ := (parse_groups_iff (follows_zero einval errno) gs).mpr hpasses
    exact ⟨gs, st, hargs, hrun⟩
  · rintro ⟨gs, st, hargs, hrun⟩
    exact ⟨gs, hargs, (parse_groups_iff (follows_zero einval errno) gs).mp ⟨st, hrun⟩⟩

/-! ## What the loop accepts -/

/-- An option without operands. -/
def Opt.isFlag (opt : Opt) : Bool :=
  opt.arity = 0

/-- The last option is no flag. -/
def EndsWithOperand (gs : List Group) : Prop :=
  ∀ g, gs.getLast? = some g → g.opt.isFlag = false

/-- A flag may stand in front of other groups, but not alone. -/
theorem EndsWithOperand.cons {gs : List Group} (h : EndsWithOperand gs) {g : Group}
    (hg : g.opt.isFlag = false ∨ gs ≠ []) : EndsWithOperand (g :: gs) := by
  intro last hlast
  cases gs with
  | nil =>
      obtain rfl := Option.some.inj hlast
      exact hg.resolve_right fun hne => hne rfl
  | cons first gs => exact h last (by rwa [List.getLast?_cons_cons] at hlast)

/-- What is behind a group ends as the whole does. -/
theorem EndsWithOperand.tail {gs : List Group} {g : Group} (h : EndsWithOperand (g :: gs)) :
    EndsWithOperand gs := by
  intro last hlast
  cases gs with
  | nil => cases hlast
  | cons first gs => exact h last (by rwa [List.getLast?_cons_cons])

/-- The options the loop has read, the last of which is no flag. -/
theorem groups_of_parses {einval : Bool} {argv : List CStr} {st st' : ParseState}
    (h : Parses einval argv st st') :
    ∃ gs : List Group, argv = gs.flatMap Group.args ∧
      gs.foldlM (parseGroup einval) st = .ok st' ∧ EndsWithOperand gs := by
  -- a flag is followed by another argument, so the options behind it are not none
  have hsome : ∀ {gs : List Group} {arg : CStr} {args : List CStr},
      arg :: args = gs.flatMap Group.args → gs ≠ [] := by
    rintro gs arg args hargs rfl
    cases hargs
  induction h with
  | done st => exact ⟨[], rfl, rfl, fun g hg => by cases hg⟩
  | @envelope arg next rest st st' hopt hrest ih =>
      obtain ⟨gs, hargs, hrun, hlast⟩ := ih
      refine ⟨⟨arg, .envelope, [], hopt, rfl, rfl⟩ :: gs, ?_, hrun, hlast.cons (.inr (hsome hargs))⟩
      rw [hargs]
      rfl
  | @minePubkey arg next rest st st' hopt hrest ih =>
      obtain ⟨gs, hargs, hrun, hlast⟩ := ih
      refine ⟨⟨arg, .minePubkey, [], hopt, rfl, rfl⟩ :: gs, ?_, hrun,
        hlast.cons (.inr (hsome hargs))⟩
      rw [hargs]
      rfl
  | @tag arg t1 t2 rest st mid st' hopt hread hrest ih =>
      obtain ⟨gs, rfl, hrun, hlast⟩ := ih
      refine ⟨⟨arg, .tag, [t1, t2], hopt, rfl, rfl⟩ :: gs, rfl, ?_, hlast.cons (.inl rfl)⟩
      rw [List.foldlM_cons]
      show (parseTag st t1 (some t2) >>= _) = _
      rw [hread]
      exact hrun
  | @operand opt arg next rest st mid st' hopt hunary hread hrest ih =>
      obtain ⟨gs, rfl, hrun, hlast⟩ := ih
      have hstays : opt.exits = false := by cases opt <;> first | rfl | cases hunary
      have harity : opt.arity = 1 := by cases opt <;> first | rfl | cases hunary
      have hflag : opt.isFlag = false := by simp [Opt.isFlag, harity]
      have hgroup : parseGroup einval st ⟨arg, opt, [next], hopt, hstays, harity.symm⟩ =
          parseOperand einval st opt next := by
        cases opt <;> first | rfl | cases hunary
      refine ⟨⟨arg, opt, [next], hopt, hstays, harity.symm⟩ :: gs, rfl, ?_, hlast.cons (.inl hflag)⟩
      rw [List.foldlM_cons, hgroup, hread]
      exact hrun

/-- And every such sequence is read. -/
theorem parses_of_groups {einval : Bool} {gs : List Group} {st st' : ParseState}
    (hrun : gs.foldlM (parseGroup einval) st = .ok st') (hlast : EndsWithOperand gs) :
    Parses einval (gs.flatMap Group.args) st st' := by
  induction gs generalizing st with
  | nil => exact (Except.ok.inj hrun) ▸ .done st
  | cons g gs ih =>
      rw [List.foldlM_cons] at hrun
      obtain ⟨mid, hmid, hrest⟩ := bind_eq_ok hrun
      have hparses := ih hrest hlast.tail
      rw [List.flatMap_cons]
      obtain ⟨word, opt, operands, named, stays, arity⟩ := g
      cases opt with
      | help | version | about | hash => cases stays
      | envelope | minePubkey =>
          obtain rfl := List.length_eq_zero_iff.mp arity
          obtain rfl := Except.ok.inj hmid
          cases gs with
          | nil => cases hlast _ rfl
          | cons first gs =>
              first
              | exact .envelope named hparses
              | exact .minePubkey named hparses
      | tag =>
          obtain ⟨t1, t2, rfl⟩ := List.length_eq_two.mp arity
          exact .tag named hmid hparses
      | sec | createdAt | kind | tags | e | p | t | pow | dm | content =>
          obtain ⟨next, rfl⟩ := List.length_eq_one_iff.mp arity
          exact .operand named rfl hmid hparses

/-- What `parse_args` accepts: sequences of options that pass their checks, the last of which has
an operand. -/
theorem parse_args_ok_iff (einval : Bool) (errno : Nat) (argv : List CStr) :
    (∃ st, parseArgs einval errno argv = .ok st) ↔ ∃ (gs : List Group) (st : ParseState),
      argv = gs.flatMap Group.args ∧
        gs.foldlM (parseGroup einval) ⟨Args.zero, NostrEvent.zero, false, errno⟩ = .ok st ∧
        EndsWithOperand gs := by
  constructor
  · rintro ⟨st, h⟩
    obtain ⟨mid, hloop, -⟩ := bind_eq_ok h
    obtain ⟨gs, hargs, hrun, hlast⟩ := groups_of_parses (parses_of_parse_loop hloop)
    exact ⟨gs, mid, hargs, hrun, hlast⟩
  · rintro ⟨gs, st, rfl, hrun, hlast⟩
    rw [parseArgs, parse_loop_of_parses (parses_of_groups hrun hlast)]
    exact ⟨_, rfl⟩

/-! ## Reading the vector -/

/-- `argv[i]`: nothing stands behind the last argument. -/
def argumentAt (argv : List CStr) (i : Nat) : Except ParseStop CStr :=
  match argv[i]? with
  | some arg => .ok arg
  | none => .error .undefined

/-- The loop of `parse_args` with the vector, the number of arguments that are left and the place
of the next one. -/
def parseWords (einval : Bool) (argv : List CStr) :
    Nat → Nat → ParseState → Except ParseStop ParseState
  | 0, _, st => .ok st
  | argc + 1, i, st => do
      let arg ← argumentAt argv i
      match exitOption arg argv[i + 1]? with
      | some stop => .error stop
      | none =>
          match argc with
          | 0 => .error (.rejected (quotingOne "expected argument: '" arg "'\n"))
          | argc + 1 =>
              match readOption arg with
              | none => .error (.rejected (quotingOne "unexpected argument '" arg "'\n"))
              | some .envelope => parseWords einval argv (argc + 1) (i + 1) st.setEnvelope
              | some .minePubkey => parseWords einval argv (argc + 1) (i + 1) st.setMinePubkey
              | some .tag => do
                  let t1 ← argumentAt argv (i + 1)
                  match argc with
                  | 0 => parseTag st t1 none
                  | argc + 1 => do
                      let t2 ← argumentAt argv (i + 2)
                      let st ← parseTag st t1 (some t2)
                      parseWords einval argv argc (i + 3) st
              | some opt => do
                  let next ← argumentAt argv (i + 1)
                  let st ← parseOperand einval st opt next
                  parseWords einval argv argc (i + 2) st

/-- Words behind some others are found by their place among them. -/
theorem argument_at_append (front rest : List CStr) (k : Nat) :
    argumentAt (front ++ rest) (front.length + k) = argumentAt rest k := by
  unfold argumentAt
  rw [List.getElem?_append_right (Nat.le_add_right _ _), Nat.add_sub_cancel_left]

/-- The loop that counts reads the arguments that are left, in order, and no others. -/
theorem parse_words_append (einval : Bool) (front rest : List CStr) (st : ParseState) :
    parseWords einval (front ++ rest) rest.length front.length st = parseLoop einval rest st := by
  have hfirst : ∀ (front : List CStr) (arg : CStr) (rest : List CStr),
      argumentAt (front ++ arg :: rest) front.length = .ok arg := fun front arg rest =>
    argument_at_append front (arg :: rest) 0
  have hnext : ∀ (front : List CStr) (arg : CStr) (rest : List CStr),
      (front ++ arg :: rest)[front.length + 1]? = rest.head? := by
    intro front arg rest
    cases rest <;> simp
  -- what was read moves to the front
  have hrec : ∀ (front args rest : List CStr) (st : ParseState),
      parseWords einval (front ++ (args ++ rest)) rest.length (front.length + args.length) st =
        parseWords einval ((front ++ args) ++ rest) rest.length (front ++ args).length st := by
    intro front args rest st
    rw [List.append_assoc, List.length_append]
  fun_induction parseLoop einval rest st generalizing front with
  | case1 st => rfl
  | case2 arg rest st stop hexit =>
      rw [List.length_cons, parseWords, hfirst, hnext]
      simp only [bind, Except.bind, hexit]
  | case3 arg st hexit =>
      rw [List.length_cons, parseWords, hfirst, hnext]
      simp only [bind, Except.bind, hexit, List.length_nil]
  | case4 arg st next rest hopt hexit =>
      rw [List.length_cons, parseWords, hfirst, hnext]
      simp only [bind, Except.bind, hexit, List.length_cons, hopt]
  | case5 arg st next rest hopt hexit ih =>
      rw [List.length_cons, parseWords, hfirst, hnext]
      simp only [bind, Except.bind, hexit, List.length_cons, hopt]
      exact (hrec front [arg] (next :: rest) _).trans (ih (front ++ [arg]))
  | case6 arg st next rest hopt hexit ih =>
      rw [List.length_cons, parseWords, hfirst, hnext]
      simp only [bind, Except.bind, hexit, List.length_cons, hopt]
      exact (hrec front [arg] (next :: rest) _).trans (ih (front ++ [arg]))
  | case7 arg st next hopt hexit =>
      have hread : argumentAt (front ++ [arg, next]) (front.length + 1) = .ok next :=
        argument_at_append front [arg, next] 1
      rw [List.length_cons, parseWords, hfirst, hnext]
      simp only [bind, Except.bind, hexit, List.length_cons, List.length_nil, hopt, hread]
  | case8 arg st next hopt value rest hexit ih =>
      have hread : argumentAt (front ++ arg :: next :: value :: rest) (front.length + 1) =
          .ok next := argument_at_append front (arg :: next :: value :: rest) 1
      have hread2 : argumentAt (front ++ arg :: next :: value :: rest) (front.length + 2) =
          .ok value := argument_at_append front (arg :: next :: value :: rest) 2
      rw [List.length_cons, parseWords, hfirst, hnext]
      simp only [bind, Except.bind, hexit, List.length_cons, hopt, hread, hread2]
      split
      · rfl
      · next mid _ =>
        exact (hrec front [arg, next, value] rest mid).trans (ih mid (front ++ [arg, next, value]))
  | case9 arg st next rest opt henvelope hmine htag hopt hexit ih =>
      have hread : argumentAt (front ++ arg :: next :: rest) (front.length + 1) = .ok next :=
        argument_at_append front (arg :: next :: rest) 1
      rw [List.length_cons, parseWords, hfirst, hnext]
      simp only [bind, Except.bind, hexit, List.length_cons, hopt, hread]
      split
      · rfl
      · next mid _ => exact (hrec front [arg, next] rest mid).trans (ih mid (front ++ [arg, next]))

/-- An operand that is refused is refused with a message. -/
theorem parse_operand_error {einval : Bool} {st : ParseState} {opt : Opt} {arg : CStr}
    {stop : ParseStop} (h : parseOperand einval st opt arg = .error stop) :
    ∃ message, stop = .rejected message := by
  have hnumber : ∀ {message : Bytes} {f : UInt64 × ParseState → ParseState},
      (do let n ← parseNumber einval st arg message; return f n) = .error stop →
      ∃ message, stop = .rejected message := by
    intro message f hrun
    rcases bind_eq_error hrun with herror | ⟨n, -, hreturn⟩
    · simp only [parseNumber] at herror
      split at herror
      · exact ⟨message, (Except.error.inj herror).symm⟩
      · cases herror
    · cases hreturn
  have htag : ∀ {name : String}, addShorthand st name arg = .error stop →
      ∃ message, stop = .rejected message := by
    intro name hrun
    unfold addShorthand addTag at hrun
    split at hrun
    · exact ⟨_, (Except.error.inj hrun).symm⟩
    · cases hrun
  cases opt with
  | createdAt | kind => exact hnumber h
  | e | p | t => exact htag h
  | tags =>
      simp only [parseOperand] at h
      split_ifs at h
      · exact ⟨_, (Except.error.inj h).symm⟩
      · exact ⟨_, (Except.error.inj h).symm⟩
  | pow =>
      simp only [parseOperand] at h
      split_ifs at h
      · exact ⟨_, (Except.error.inj h).symm⟩
      · exact hnumber h
  | dm =>
      simp only [parseOperand] at h
      split at h
      · exact ⟨_, (Except.error.inj h).symm⟩
      · cases h
  | _ => cases h

/-- A tag is refused with a message. -/
theorem parse_tag_error {st : ParseState} {t1 : CStr} {t2 : Option CStr} {stop : ParseStop}
    (h : parseTag st t1 t2 = .error stop) : ∃ message, stop = .rejected message := by
  unfold parseTag at h
  split at h
  · exact ⟨_, (Except.error.inj h).symm⟩
  · split at h
    · exact ⟨_, (Except.error.inj h).symm⟩
    · unfold addTag at h
      split at h
      · exact ⟨_, (Except.error.inj h).symm⟩
      · cases h

/-- Without `--hash`, the loop does nothing undefined. -/
theorem parse_loop_defined {einval : Bool} {argv : List CStr}
    (hhash : ∀ arg ∈ argv, readOption arg ≠ some .hash) (st : ParseState) :
    parseLoop einval argv st ≠ .error .undefined := by
  fun_induction parseLoop einval argv st with
  | case1 st => exact fun h => by cases h
  | case2 arg rest st stop hexit =>
      intro h
      obtain rfl := Except.error.inj h
      have harg := hhash arg List.mem_cons_self
      unfold exitOption at hexit
      split at hexit
      all_goals first | cases hexit | contradiction
  | case3 => exact fun h => by cases h
  | case4 => exact fun h => by cases h
  | case5 arg st next rest hopt hexit ih =>
      exact ih fun a ha => hhash a (List.mem_cons_of_mem _ ha)
  | case6 arg st next rest hopt hexit ih =>
      exact ih fun a ha => hhash a (List.mem_cons_of_mem _ ha)
  | case7 arg st next hopt hexit =>
      intro h
      obtain ⟨message, hmessage⟩ := parse_tag_error h
      cases hmessage
  | case8 arg st next hopt value rest hexit ih =>
      intro h
      rcases bind_eq_error h with herror | ⟨mid, -, hrest⟩
      · obtain ⟨message, hmessage⟩ := parse_tag_error herror
        cases hmessage
      · exact ih mid (fun a ha => hhash a (by simp [ha])) hrest
  | case9 arg st next rest opt henvelope hmine htag hopt hexit ih =>
      intro h
      rcases bind_eq_error h with herror | ⟨mid, -, hrest⟩
      · obtain ⟨message, hmessage⟩ := parse_operand_error herror
        cases hmessage
      · exact ih mid (fun a ha => hhash a (by simp [ha])) hrest

/-! ## The grammar and the loop -/

/-- The options that end the program, as they are written in full. -/
def exitNames : List String :=
  ["--help", "--version", "--about", "--hash"]

/-- The option for a hash is written in one way. -/
theorem read_option_hash {arg : CStr} (h : readOption arg = some .hash) :
    arg.bytes = ascii "--hash" := by
  obtain ⟨name, hfind, hopt⟩ := Option.map_eq_some_iff.mp h
  have hname := List.find?_some hfind
  have hmem := List.mem_of_find?_eq_some hfind
  simp only [decide_eq_true_eq] at hname
  rw [← hname]
  simp only [optionNames, List.mem_cons, List.not_mem_nil, or_false] at hmem
  rcases hmem with rfl | rfl | rfl | rfl | rfl | rfl | rfl | rfl | rfl | rfl | rfl | rfl | rfl |
    rfl | rfl | rfl | rfl | rfl | rfl | rfl | rfl
  all_goals first | exact absurd hopt (by decide) | rfl

/-- A flag is an option with nothing behind it, and passes wherever it stands. -/
theorem exists_flag_group (einval : Bool) {word : CStr} {opt : Opt}
    (hopt : readOption word = some opt) (hflag : opt.isFlag = true) :
    ∃ g : Group, g.args = [word] ∧ g.opt = opt ∧ ∀ st, ∃ st', parseGroup einval st g = .ok st' := by
  cases opt with
  | envelope => exact ⟨⟨word, .envelope, [], hopt, rfl, rfl⟩, rfl, rfl, fun st => ⟨_, rfl⟩⟩
  | minePubkey => exact ⟨⟨word, .minePubkey, [], hopt, rfl, rfl⟩, rfl, rfl, fun st => ⟨_, rfl⟩⟩
  | _ => cases hflag

/-- `parse_args` accepts exactly the vectors of its grammar and reads no argument that is not there,
unless the vector is one of the grammar with a flag behind it. -/
theorem parse_args_grammar_iff (einval : Bool) (errno : Nat) (argv : List CStr)
    (hexit : ∀ arg ∈ argv, arg.bytes ∉ exitNames.map ascii) :
    (((∃ st, parseArgs einval errno argv = .ok st) ↔ Grammatical einval errno argv) ∧
        parseWords einval argv argv.length 0 ⟨Args.zero, NostrEvent.zero, false, errno⟩ ≠
          .error .undefined) ↔
      ¬ ∃ front word opt, argv = front ++ [word] ∧ readOption word = some opt ∧
        opt.isFlag = true ∧ Grammatical einval errno front := by
  have hdefined : parseWords einval argv argv.length 0
      ⟨Args.zero, NostrEvent.zero, false, errno⟩ ≠ .error .undefined := by
    have hwords := parse_words_append einval [] argv ⟨Args.zero, NostrEvent.zero, false, errno⟩
    have hhash : ∀ arg ∈ argv, readOption arg ≠ some .hash := by
      intro arg harg hhash
      refine hexit arg harg ?_
      rw [read_option_hash hhash]
      decide
    rw [List.nil_append, List.length_nil] at hwords
    rw [hwords]
    exact parse_loop_defined hhash _
  rw [and_iff_left hdefined, parse_args_ok_iff]
  simp only [grammatical_iff]
  constructor
  · rintro hiff ⟨front, word, opt, rfl, hopt, hflag, gs, st, rfl, hrun⟩
    obtain ⟨g, hargs, rfl, hpasses⟩ := exists_flag_group einval hopt hflag
    obtain ⟨st', hlast⟩ := hpasses st
    have hread : gs.flatMap Group.args ++ [word] = (gs ++ [g]).flatMap Group.args := by
      simp [hargs]
    have hrun' : (gs ++ [g]).foldlM (parseGroup einval)
        ⟨Args.zero, NostrEvent.zero, false, errno⟩ = .ok st' := by
      rw [List.foldlM_append, hrun]
      show [g].foldlM (parseGroup einval) st = _
      rw [List.foldlM_cons, hlast]
      rfl
    -- the vector can be read in this way only
    obtain ⟨gs', -, hargs', -, hends⟩ := hiff.mpr ⟨gs ++ [g], st', hread, hrun'⟩
    have hsame : gs ++ [g] = gs' := delimited_args.flatMap_injective
      (fun g => List.cons_ne_nil _ _) (hread.symm.trans hargs')
    have hoperand := hends g (by rw [← hsame, List.getLast?_concat])
    rw [hflag] at hoperand
    cases hoperand
  · intro hno
    constructor
    · rintro ⟨gs, st, hargs, hrun, -⟩
      exact ⟨gs, st, hargs, hrun⟩
    · rintro ⟨gs, st, rfl, hrun⟩
      refine ⟨gs, st, rfl, hrun, fun g hg => ?_⟩
      obtain ⟨init, rfl⟩ : ∃ init, gs = init ++ [g] := List.getLast?_eq_some_iff.mp hg
      by_contra hflag
      rw [Bool.not_eq_false] at hflag
      have hempty : g.operands = [] := by
        rw [← List.length_eq_zero_iff, g.arity]
        simpa [Opt.isFlag] using hflag
      rw [List.foldlM_append] at hrun
      obtain ⟨mid, hmid, -⟩ := bind_eq_ok hrun
      refine hno ⟨init.flatMap Group.args, g.word, g.opt, ?_, g.named, hflag, init, mid, rfl, hmid⟩
      simp [Group.args, hempty]

/-- Arguments from their texts. -/
def vector (words : List String) : List CStr :=
  words.map fun s => CStr.ofBytes (ascii s)

/-- A flag in front of another option does no harm. -/
theorem parse_args_grammar_iff_envelope :
    (∃ st, parseArgs false 0 (vector ["--envelope", "--content", "hi"]) = .ok st) ↔
      Grammatical false 0 (vector ["--envelope", "--content", "hi"]) := by
  refine ((parse_args_grammar_iff false 0 (vector ["--envelope", "--content", "hi"])
    (by decide)).mpr ?_).1
  rintro ⟨front, word, opt, hargv, hopt, -, -⟩
  have hword : CStr.ofBytes (ascii "hi") = word := by
    have hlast := congrArg List.getLast? hargv
    rw [List.getLast?_concat] at hlast
    exact Option.some.inj hlast
  rw [← hword] at hopt
  cases hopt

/-- Behind another option it is refused. -/
theorem parse_args_refuses_last_flag :
    ¬ ∀ (einval : Bool) (errno : Nat) (argv : List CStr),
      (∀ arg ∈ argv, arg.bytes ∉ exitNames.map ascii) →
      (((∃ st, parseArgs einval errno argv = .ok st) ↔ Grammatical einval errno argv) ∧
        parseWords einval argv argv.length 0 ⟨Args.zero, NostrEvent.zero, false, errno⟩ ≠
          .error .undefined) := by
  intro h
  obtain ⟨hiff, -⟩ := h false 0 (vector ["--content", "hi", "--envelope"]) (by decide)
  have hgrammar : Grammatical false 0 (vector ["--content", "hi", "--envelope"]) := by
    refine (grammatical_iff _ _ _).mpr ⟨[⟨CStr.ofBytes (ascii "--content"), .content,
      [CStr.ofBytes (ascii "hi")], rfl, rfl, rfl⟩,
      ⟨CStr.ofBytes (ascii "--envelope"), .envelope, [], rfl, rfl, rfl⟩], _, rfl, rfl⟩
  obtain ⟨st, hst⟩ := hiff.mpr hgrammar
  obtain ⟨mid, hloop, -⟩ := bind_eq_ok hst
  have hrefused : (parseLoop false (vector ["--content", "hi", "--envelope"])
      ⟨Args.zero, NostrEvent.zero, false, 0⟩).toOption.isSome = false := rfl
  rw [hloop] at hrefused
  cases hrefused

/-! ## Numbers -/

/-- The number an option stores for an operand: in a `uint64_t` or in an `int`. -/
def Opt.stored (opt : Opt) (operand : CStr) : Int :=
  match opt with
  | .createdAt => (parseNum operand).toNat
  | _ => (parseNum operand).toUInt32.toInt32.toInt

/-- The numbers `parse_num` and the conversion behind it leave alone. -/
def Opt.InRange (opt : Opt) (z : Int) : Prop :=
  match opt with
  | .createdAt => 0 ≤ z ∧ z < 2 ^ 63
  | _ => -(2 ^ 31) ≤ z ∧ z < 2 ^ 31

/-- Every number of a vector is stored as it was given. -/
structure NumbersExact (argv : List CStr) (args : Args) : Prop where
  numerals : ∀ opt operand, (opt, [operand]) ∈ groups argv → opt.isNumeric = true →
    ∃ z, IsNumeral operand.bytes z ∧ opt.stored operand = z
  createdAt : ∀ operand, lastOperand .createdAt argv = some operand →
    (args.createdAt.toNat : Int) = Opt.stored .createdAt operand
  kind : ∀ operand, lastOperand .kind argv = some operand →
    args.kind.toInt = Opt.stored .kind operand
  difficulty : ∀ operand, lastOperand .pow argv = some operand →
    args.difficulty.toInt = Opt.stored .pow operand

/-- A numeral is stored as the number it stands for exactly when that is in range. -/
theorem stored_eq_iff {opt : Opt} {operand : CStr} {z : Int} (h : IsNumeral operand.bytes z) :
    opt.stored operand = z ↔ opt.InRange z := by
  have hstrtol : strtol operand.bytes = max (-(2 ^ 63)) (min (2 ^ 63 - 1) z) := by
    rw [strtol, h.read.2]
  have htime : Opt.stored .createdAt operand = z ↔ Opt.InRange .createdAt z := by
    simp only [Opt.stored, Opt.InRange, parseNum, to_nat_of_int, hstrtol]
    omega
  have hint : (parseNum operand).toUInt32.toInt32.toInt = z ↔ -(2 ^ 31) ≤ z ∧ z < 2 ^ 31 := by
    simp only [parseNum, to_int_of_int, hstrtol, Int.bmod]
    omega
  cases opt with
  | createdAt => exact htime
  | _ => exact hint

/-- The kind is the operand of the last `--kind`, as a number. -/
theorem kind_parse_args {einval : Bool} {errno : Nat} {argv : List CStr} {st : ParseState}
    (h : parseArgs einval errno argv = .ok st) :
    (if st.args.flags.kind then some st.args.kind else none) =
      (lastOperand .kind argv).map fun operand => (parseNum operand).toUInt32.toInt32 :=
  parse_args_last (fun args => if args.flags.kind then some args.kind else none)
    .kind _ (fun _ => rfl) (fun _ => rfl) (fun st opt arg => by cases opt <;> rfl)
    (fun _ _ => rfl) rfl h

/-- A setting with its flag up holds its value. -/
theorem eq_of_flagged {α β : Type} {flag : Bool} {a : α} {value : β → α} {o : Option β} {b : β}
    (h : (if flag then some a else none) = o.map value) (ho : o = some b) : a = value b := by
  rw [ho] at h
  cases flag with
  | false => cases h
  | true => exact Option.some.inj h

/-- The numbers of an accepted vector are stored as they are given exactly when every one of them
is a decimal numeral in the range of its option. -/
theorem numbers_exact_iff (einval : Bool) (errno : Nat) (argv : List CStr) (st : ParseState)
    (h : parseArgs einval errno argv = .ok st) :
    NumbersExact argv st.args ↔
      ∀ opt operand, (opt, [operand]) ∈ groups argv → opt.isNumeric = true →
        ∃ z, IsNumeral operand.bytes z ∧ opt.InRange z := by
  constructor
  · intro hexact opt operand hmem hnumeric
    obtain ⟨z, hz, hstored⟩ := hexact.numerals opt operand hmem hnumeric
    exact ⟨z, hz, (stored_eq_iff hz).mp hstored⟩
  · intro hrange
    refine ⟨fun opt operand hmem hnumeric => ?_, fun operand ho => ?_, fun operand ho => ?_,
      fun operand ho => ?_⟩
    · obtain ⟨z, hz, hin⟩ := hrange opt operand hmem hnumeric
      exact ⟨z, hz, (stored_eq_iff hz).mpr hin⟩
    · rw [eq_of_flagged (time_parse_args h) ho]
      rfl
    · rw [eq_of_flagged (kind_parse_args h) ho]
      rfl
    · rw [eq_of_flagged (difficulty_parse_args h) ho]
      rfl

/-- A kind that is a numeral. -/
theorem numbers_exact_iff_kind :
    ∃ st, parseArgs false 0 (vector ["--kind", "42"]) = .ok st ∧
      NumbersExact (vector ["--kind", "42"]) st.args := by
  refine ⟨_, rfl, (numbers_exact_iff false 0 _ _ rfl).mpr fun opt operand hmem _ => ?_⟩
  have hgroups : groups (vector ["--kind", "42"]) = [(.kind, [CStr.ofBytes (ascii "42")])] := rfl
  rw [hgroups, List.mem_singleton, Prod.mk.injEq, List.cons.injEq] at hmem
  obtain ⟨rfl, rfl, -⟩ := hmem
  have hdigits : ∀ b ∈ ascii "42", isDigit b = true := List.forall_iff_forall_mem.mp ⟨rfl, rfl⟩
  exact ⟨42, .plain (List.cons_ne_nil _ _) hdigits, by decide, by decide⟩

/-- A kind that is no number is accepted as the kind 0. -/
theorem parse_args_accepts_no_number :
    ¬ ∀ (einval : Bool) (errno : Nat) (argv : List CStr) (st : ParseState),
      parseArgs einval errno argv = .ok st → NumbersExact argv st.args := by
  intro h
  have hexact := h false 0 (vector ["--kind", "abc"]) _ rfl
  obtain ⟨z, hz, -⟩ := hexact.numerals .kind (CStr.ofBytes (ascii "abc")) (by decide) rfl
  exact hz.read.1 rfl

end Gnostr
