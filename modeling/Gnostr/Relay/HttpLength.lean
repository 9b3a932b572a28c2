import Gnostr.Relay.Http

/-!
# The length of a body

How many octets of a body `http::parse` still asks the connection for, against the length that the
header declares. The length is read with `atoi` and kept in a `size_t`, and what is buffered
already is subtracted from it. `parse_counts_iff` says for which headers and which split of the
body that is the number of octets missing.
-/

namespace Gnostr.Relay

open Wire

/-! ## What a header declares -/

/-- The lines of a header that speak of a length. -/
def lengthLines (header : List Bytes) : List Bytes :=
  header.filter fun line => find (ascii "Content-Length: ") line ≠ npos

/-- The blanks that may stand around a value. -/
def IsBlank (b : UInt8) : Prop :=
  b = 32 ∨ b = 9

/-- The number a line declares: nothing but a decimal numeral stands, between blanks, behind its
first colon and a space. A line with a stray end in it declares no number. -/
inductive Declares : Bytes → Int → Prop where
  | line {name lead text trail stop : Bytes} {z : Int} (hname : 58 ∉ name ∧ 13 ∉ name)
      (hlead : ∀ b ∈ lead, IsBlank b) (htext : IsNumeral text z)
      (htrail : ∀ b ∈ trail, IsBlank b) (hstop : stop = [] ∨ stop = [13]) :
      Declares (name ++ (ascii ": " ++ (lead ++ (text ++ (trail ++ stop))))) z

/-- Every length that is declared is a number, and not a negative one. -/
def LengthsValid (header : List Bytes) : Prop :=
  ∀ line ∈ lengthLines header, ∃ n : Nat, Declares line n

/-- The length that counts is the one declared last. -/
def DeclaresBody (header : List Bytes) (length : Nat) : Prop :=
  ∃ line, (lengthLines header).getLast? = some line ∧ Declares line length

/-! ## What is asked for -/

/-- The count `parse` passes to `transfer_exactly`, when it comes to that. -/
def transferCount (buf : Bytes) (header : List Bytes) : Option UInt64 :=
  match findLength 0 HttpMsg.new header with
  | none => none
  | some (contentSize, http) =>
      if http.contentSize = 0 then none else some (readLeft contentSize buf)

/-- The octets that `parse` asks for are those of the declared body that are not buffered, and a
body it accepts is as long as declared. A header with a length that is no number, or a negative
one, is refused before anything is asked for. -/
structure CountsBody (sock : Socket) (header : List Bytes) (buf rest : Bytes) : Prop where
  refused : ¬ LengthsValid header →
    transferCount buf header = none ∧ (parse sock HttpMsg.new).1 = -1
  counted : ∀ length : Nat, LengthsValid header → DeclaresBody header length →
    (((transferCount buf header).getD 0).toNat : Int) = max 0 ((length : Int) - buf.length)
  body : ∀ length : Nat, LengthsValid header → DeclaresBody header length →
    (parse sock HttpMsg.new).1 = 0 →
      (parse sock HttpMsg.new).2.msg = (buf ++ rest).take length

/-! ## Reading a length line -/

/-- In a length line there is a text behind the first colon and one octet more. -/
theorem colon_of_length_line {line : Bytes} (h : find (ascii "Content-Length: ") line ≠ npos) :
    find (ascii ":") line + 2 ≤ line.length := by
  have hinfix : ascii "Content-Length: " <:+: line := by
    by_contra hno
    exact h (find_eq_npos hno)
  obtain ⟨front, back, rfl⟩ := hinfix
  have hsplit : front ++ ascii "Content-Length: " ++ back =
      (front ++ ascii "Content-Length") ++ (ascii ":" ++ 32 :: back) := by
    rw [List.append_assoc, List.append_assoc]
    rfl
  obtain ⟨i, hi, hindex⟩ :=
    index_of_append_le (ascii ":") (front ++ ascii "Content-Length") (32 :: back)
  have hcolon : find (ascii ":") (front ++ ascii "Content-Length: " ++ back) = i := by
    rw [hsplit, find, hindex, Option.getD_some]
  have hname : (ascii "Content-Length").length = 14 ∧ (ascii "Content-Length: ").length = 16 :=
    ⟨rfl, rfl⟩
  simp only [List.length_append, hname] at hi ⊢
  rw [List.append_assoc] at hcolon
  rw [List.append_assoc, hcolon]
  omega

/-- `substr` does not throw on a length line. -/
theorem declared_length_some {line : Bytes} (h : find (ascii "Content-Length: ") line ≠ npos) :
    ∃ contentSize, declaredLength line = some contentSize := by
  rw [declaredLength, substr, if_pos (colon_of_length_line h)]
  exact ⟨_, rfl⟩

/-- The text cut out of a length line without a stray end reaches to the end of the line. -/
theorem substr_length_line {line : Bytes} (h : find (ascii "Content-Length: ") line ≠ npos)
    (hcr : 13 ∉ line.dropLast) (hlen : line.length < 2 ^ 64) :
    substr line (find (ascii ":") line + 2) (sizeSub (find [13] line) 1) =
      some (line.drop (find (ascii ":") line + 2)) := by
  have hcolon := colon_of_length_line h
  have hroom : line.length - 2 ≤ sizeSub (find [13] line) 1 := by
    by_cases hend : 13 ∈ line
    · have hne : line ≠ [] := List.ne_nil_of_mem hend
      have hline := List.dropLast_concat_getLast hne
      have hlast : line.getLast hne = 13 := by
        rw [← hline, List.mem_append, List.mem_singleton] at hend
        rcases hend with hmem | heq
        · exact absurd hmem hcr
        · exact heq.symm
      have hfind := find_octet hcr []
      rw [← hlast, hline, hlast, List.length_dropLast] at hfind
      rw [hfind]
      unfold sizeSub
      omega
    · have hfind : find [13] line = npos := find_eq_npos fun hin => hend (hin.subset (by simp))
      rw [hfind]
      unfold sizeSub npos
      omega
  rw [substr, if_pos hcolon, List.take_of_length_le]
  rw [List.length_drop]
  omega

/-- What a numeral may stand behind is skipped by `atoi`. -/
theorem is_space_of_is_blank {b : UInt8} (h : IsBlank b) : isSpace b = true := by
  rcases h with rfl | rfl <;> rfl

/-- Neither the digits of a number nor the blanks around it end a line. -/
theorem Declares.no_stray_end {line : Bytes} {z : Int} (h : Declares line z) :
    13 ∉ line.dropLast := by
  obtain @⟨name, lead, text, trail, stop, z, hname, hlead, htext, htrail, hstop⟩ := h
  have hblanks : ∀ {t : Bytes}, (∀ b ∈ t, IsBlank b) → 13 ∉ t := fun ht hmem =>
    (ht 13 hmem).elim (by decide) (by decide)
  have hfree : 13 ∉ name ++ (ascii ": " ++ (lead ++ (text ++ trail))) := by
    have hcolon : 13 ∉ ascii ": " := by decide
    simp [hname.2, hcolon, hblanks hlead, htext.not_mem (b := 13) (by decide) (by decide)
      (by decide), hblanks htrail]
  rcases hstop with rfl | rfl
  · rw [List.append_nil]
    exact fun hmem => hfree (List.mem_of_mem_dropLast hmem)
  · have hend : name ++ (ascii ": " ++ (lead ++ (text ++ (trail ++ [13])))) =
        name ++ (ascii ": " ++ (lead ++ (text ++ trail))) ++ [13] := by
      simp only [List.append_assoc]
    rwa [hend, List.dropLast_concat]

/-- The number a line declares is read behind its colon. -/
theorem Declares.value {line : Bytes} {z : Int} (h : Declares line z) :
    numeralValue (line.drop (find (ascii ":") line + 2)) = z := by
  obtain @⟨name, lead, text, trail, stop, z, hname, hlead, htext, htrail, hstop⟩ := h
  have hrest : (trail ++ stop).takeWhile isDigit = [] := by
    cases trail with
    | nil => rcases hstop with rfl | rfl <;> rfl
    | cons b trail =>
        exact List.takeWhile_cons_of_neg
          (by rcases htrail b List.mem_cons_self with rfl | rfl <;> decide)
  have hcolon : find (ascii ":")
      (name ++ (ascii ": " ++ (lead ++ (text ++ (trail ++ stop))))) = name.length :=
    find_octet hname.1 (32 :: (lead ++ (text ++ (trail ++ stop))))
  have hbehind : (name ++ (ascii ": " ++ (lead ++ (text ++ (trail ++ stop))))).drop
      (name.length + 2) = lead ++ (text ++ (trail ++ stop)) := by
    rw [List.drop_append, List.drop_of_length_le (by omega), Nat.add_sub_cancel_left]
    rfl
  rw [hcolon, hbehind, numeralValue, numeral_spaces fun b hb => is_space_of_is_blank (hlead b hb)]
  exact (htext.read_append hrest).2

/-- What `parse` makes of a declared number. -/
theorem declared_length_number {line : Bytes} {z : Int}
    (h : find (ascii "Content-Length: ") line ≠ npos) (hlen : line.length < 2 ^ 64)
    (hz : Declares line z) :
    declaredLength line =
      some (UInt64.ofInt ((max (-(2 ^ 63)) (min (2 ^ 63 - 1) z)).bmod (2 ^ 32))) := by
  have hvalue :
      numeralValue (CStr.ofBytes (line.drop (find (ascii ":") line + 2))).bytes = z := by
    have hcut : numeral (CStr.ofBytes (line.drop (find (ascii ":") line + 2))).bytes = _ :=
      numeral_take_while (by decide +kernel) (by decide +kernel) rfl rfl _
    rw [numeralValue, hcut]
    exact hz.value
  simp only [declaredLength, substr_length_line h hz.no_stray_end hlen, Option.bind_eq_bind,
    Option.bind_some, atoi, strtol, hvalue, Int32.toInt_ofInt]
  rfl

/-! ## Reading a header -/

/-- The lines that mention the length are lines of the header. -/
theorem mem_length_lines {line : Bytes} {header : List Bytes} :
    line ∈ lengthLines header ↔ line ∈ header ∧ find (ascii "Content-Length: ") line ≠ npos := by
  simp [lengthLines]

/-- The last length line decides. -/
theorem find_length_eq (contentSize : UInt64) (http : HttpMsg) (header : List Bytes) :
    findLength contentSize http header =
      match (lengthLines header).getLast? with
      | none => some (contentSize, http)
      | some line => (declaredLength line).map fun contentSize =>
          (contentSize, { http with contentSize := contentSize }) := by
  induction header generalizing contentSize http with
  | nil => rfl
  | cons line header ih =>
      by_cases h : find (ascii "Content-Length: ") line ≠ npos
      · obtain ⟨size, hsize⟩ := declared_length_some h
        have hlines : lengthLines (line :: header) = line :: lengthLines header :=
          List.filter_cons_of_pos (by simpa using h)
        rw [findLength, if_pos h, hsize, hlines, List.getLast?_cons]
        simp only [Option.bind_eq_bind, Option.bind_some, ih]
        cases (lengthLines header).getLast? with
        | none => rw [Option.getD_none, hsize]; rfl
        | some last => rfl
      · have hlines : lengthLines (line :: header) = lengthLines header :=
          List.filter_cons_of_neg (by simpa using h)
        rw [findLength, if_neg h, hlines, ih]

/-- Neither the lines of a header nor what is left behind it are longer than the buffer. -/
theorem read_header_le (header : List Bytes) (buf : Bytes) :
    (readHeader header buf).2.length ≤ buf.length ∧
      ∀ line ∈ (readHeader header buf).1, line ∈ header ∨ line.length ≤ buf.length := by
  fun_induction readHeader header buf with
  | case1 header buf hnone => exact ⟨Nat.le_refl _, fun line hline => .inl hline⟩
  | case2 header buf rest hline =>
      exact ⟨(getline_shorter hline).le, fun line hmem => .inl hmem⟩
  | case3 header buf line rest hline hblank ih =>
      have hshorter := getline_shorter hline
      have hcut : line.length ≤ buf.length := by
        unfold getline at hline
        split_ifs at hline
        obtain rfl := (Prod.mk.inj (Option.some.inj hline)).1
        exact (List.takeWhile_prefix _).length_le
      refine ⟨ih.1.trans hshorter.le, fun other hother => ?_⟩
      rcases ih.2 other hother with hmem | hle
      · rcases List.mem_append.mp hmem with hmem | hmem
        · exact .inl hmem
        · exact .inr (List.mem_singleton.mp hmem ▸ hcut)
      · exact .inr (hle.trans hshorter.le)

/-! ## What a length does -/

/-- What is left to read is the length less what came with the header. -/
theorem read_left_to_nat (contentSize : UInt64) (buf : Bytes) :
    ((readLeft contentSize buf).toNat : Int) = (contentSize.toNat - buf.length : Int) % 2 ^ 64 := by
  have hlt := contentSize.toNat_lt
  unfold readLeft
  split_ifs with hbuf
  · rw [UInt64.toNat_sub, UInt64.toNat_ofNat']
    omega
  · omega

/-- What is read is what is left, unless the length is zero. -/
theorem transfer_count_eq {header : List Bytes} {line : Bytes} {contentSize : UInt64}
    (hlast : (lengthLines header).getLast? = some line)
    (hline : declaredLength line = some contentSize) (buf : Bytes) :
    transferCount buf header =
      if contentSize = 0 then none else some (readLeft contentSize buf) := by
  rw [transferCount, find_length_eq, hlast]
  simp only [hline, Option.map_some]

/-- How `parse` ends when the last length line gives a number. -/
theorem parse_length {sock : Socket} {front rest : Bytes} {line : Bytes} {contentSize : UInt64}
    (hread : readUntil (crlf ++ crlf) sock = some (front, rest))
    (hlast : (lengthLines (readHeader [] front).1).getLast? = some line)
    (hline : declaredLength line = some contentSize) :
    ∃ http : HttpMsg, parse sock HttpMsg.new =
      if contentSize = 0 then (0, { http with msg := [] })
      else
        match transferExactly (readLeft contentSize (readHeader [] front).2) rest with
        | none => (-1, { http with msg := [] })
        | some more => (0, { http with msg := (readHeader [] front).2 ++ more }) := by
  have hmem := List.mem_of_getLast? hlast
  have hne : (readHeader [] front).1 ≠ [] := List.ne_nil_of_mem (mem_length_lines.mp hmem).1
  rcases hheader : readHeader [] front with ⟨header, buf⟩
  rw [hheader] at hlast hne
  obtain ⟨first, others, rfl⟩ := List.exists_cons_of_ne_nil hne
  refine ⟨⟨contentSize, getMethod first, getUrl first, first :: others, []⟩, ?_⟩
  have hparse : parse sock HttpMsg.new =
      parseBody buf rest ⟨0, [], [], first :: others, []⟩ := by
    simp only [parse, hread, HttpMsg.new, hheader]
  rw [hparse]
  by_cases hzero : contentSize = 0
  · simp [parseBody, find_length_eq, hlast, hline, hzero]
  · cases hmore : transferExactly (readLeft contentSize buf) rest with
    | none => simp [parseBody, find_length_eq, hlast, hline, hzero, hmore]
    | some more => simp [parseBody, find_length_eq, hlast, hline, hzero, hmore]

/-- A length that is valid and counts was read from its line. -/
theorem declared_body_some {header : List Bytes} {length : Nat}
    (hsize : ∀ line ∈ header, line.length < 2 ^ 64)
    (h : DeclaresBody header length) :
    ∃ line contentSize, (lengthLines header).getLast? = some line ∧
      declaredLength line = some contentSize ∧
      (contentSize.toNat : Int) = (min (2 ^ 63 - 1) (length : Int)).bmod (2 ^ 32) % 2 ^ 64 := by
  obtain ⟨line, hlast, hnumber⟩ := h
  obtain ⟨hmem, hline⟩ := mem_length_lines.mp (List.mem_of_getLast? hlast)
  refine ⟨line, _, hlast, declared_length_number hline (hsize line hmem) hnumber, ?_⟩
  have hclamp : max (-(2 ^ 63)) (min (2 ^ 63 - 1) (length : Int)) =
      min (2 ^ 63 - 1) (length : Int) := by omega
  rw [to_nat_of_int, hclamp]

/-- The conversions keep a length that fits an `int`, and the largest `size_t`. -/
theorem length_kept {c : Nat} {length : Nat}
    (h : (c : Int) = (min (2 ^ 63 - 1) (length : Int)).bmod (2 ^ 32) % 2 ^ 64) :
    c = length ↔ length < 2 ^ 31 ∨ length = 2 ^ 64 - 1 := by
  rw [Int.bmod_def] at h
  split_ifs at h <;> omega

/-- A transfer that is not asked for more than there is. -/
theorem transfer_exactly_zero {count : UInt64} (h : count.toNat = 0) (rest : Bytes) :
    transferExactly count rest = some [] := by
  rw [transferExactly, h, if_pos (Nat.zero_le _), List.take_zero]

/-- A header with a bad length is not refused before anything is asked for. -/
theorem not_refused {sock : Socket} {front rest : Bytes}
    (hread : readUntil (crlf ++ crlf) sock = some (front, rest))
    (h : ¬ LengthsValid (readHeader [] front).1) :
    ¬ (transferCount (readHeader [] front).2 (readHeader [] front).1 = none ∧
      (parse sock HttpMsg.new).1 = -1) := by
  rintro ⟨hcount, hstatus⟩
  simp only [LengthsValid, not_forall] at h
  obtain ⟨bad, hbad, -⟩ := h
  obtain ⟨line, hlast⟩ : ∃ line, (lengthLines (readHeader [] front).1).getLast? = some line :=
    ⟨_, List.getLast?_eq_some_getLast (List.ne_nil_of_mem hbad)⟩
  obtain ⟨contentSize, hline⟩ :=
    declared_length_some (mem_length_lines.mp (List.mem_of_getLast? hlast)).2
  obtain ⟨http, hparse⟩ := parse_length hread hlast hline
  rw [transfer_count_eq hlast hline] at hcount
  have hzero : contentSize = 0 := by
    by_contra hne
    rw [if_neg hne] at hcount
    cases hcount
  rw [hparse, if_pos hzero] at hstatus
  cases hstatus

/-- A length that is counted out right was kept by the conversions and is not below what is
buffered. -/
theorem length_of_counted {sock : Socket} {front rest : Bytes} {length : Nat}
    (hread : readUntil (crlf ++ crlf) sock = some (front, rest)) (hsize : front.length < 2 ^ 64)
    (hlong : ∀ line ∈ (readHeader [] front).1, line.length < 2 ^ 64)
    (hlength : DeclaresBody (readHeader [] front).1 length)
    (hcount : (((transferCount (readHeader [] front).2 (readHeader [] front).1).getD 0).toNat :
      Int) = max 0 ((length : Int) - (readHeader [] front).2.length))
    (hbody : (parse sock HttpMsg.new).1 = 0 →
      (parse sock HttpMsg.new).2.msg = ((readHeader [] front).2 ++ rest).take length) :
    (length < 2 ^ 31 ∨ length = 2 ^ 64 - 1) ∧
      (length = 0 ∨ (readHeader [] front).2.length ≤ length) := by
  have hbuf := (read_header_le [] front).1
  obtain ⟨line, contentSize, hlast, hline, hkept⟩ := declared_body_some hlong hlength
  obtain ⟨http, hparse⟩ := parse_length hread hlast hline
  rw [transfer_count_eq hlast hline] at hcount
  by_cases hzero : contentSize = 0
  · rw [if_pos hzero] at hcount hparse
    rw [hparse] at hbody
    have hempty := congrArg List.length (hbody rfl)
    simp only [List.length_nil, List.length_take, List.length_append, Option.getD_none,
      UInt64.toNat_zero] at hempty hcount
    omega
  · rw [if_neg hzero, Option.getD_some, read_left_to_nat] at hcount
    by_cases hle : (readHeader [] front).2.length ≤ length
    · refine ⟨(length_kept hkept).mp ?_, .inr hle⟩
      have hlt := contentSize.toNat_lt
      rw [Int.bmod_def] at hkept
      split_ifs at hkept <;> omega
    · -- nothing is asked for, and the whole buffer is taken for the body
      have hnone : (readLeft contentSize (readHeader [] front).2).toNat = 0 := by
        have hleft := read_left_to_nat contentSize (readHeader [] front).2
        omega
      rw [if_neg hzero, transfer_exactly_zero hnone] at hparse
      rw [hparse] at hbody
      have hlen := congrArg List.length (hbody rfl)
      simp only [List.append_nil, List.length_take, List.length_append] at hlen
      omega

/-- A length that the conversions keep, and that is not below what is buffered, is counted out
right. -/
theorem counted_of_length {sock : Socket} {front rest : Bytes} {length : Nat}
    (hread : readUntil (crlf ++ crlf) sock = some (front, rest))
    (hlong : ∀ line ∈ (readHeader [] front).1, line.length < 2 ^ 64)
    (hlength : DeclaresBody (readHeader [] front).1 length)
    (hrange : length < 2 ^ 31 ∨ length = 2 ^ 64 - 1)
    (hle : length = 0 ∨ (readHeader [] front).2.length ≤ length) :
    (((transferCount (readHeader [] front).2 (readHeader [] front).1).getD 0).toNat : Int) =
        max 0 ((length : Int) - (readHeader [] front).2.length) ∧
      ((parse sock HttpMsg.new).1 = 0 →
        (parse sock HttpMsg.new).2.msg = ((readHeader [] front).2 ++ rest).take length) := by
  obtain ⟨line, contentSize, hlast, hline, hkept⟩ := declared_body_some hlong hlength
  obtain ⟨http, hparse⟩ := parse_length hread hlast hline
  have hsame : contentSize.toNat = length := (length_kept hkept).mpr hrange
  rw [transfer_count_eq hlast hline, hparse]
  by_cases hzero : contentSize = 0
  · have hnone : length = 0 := by rw [← hsame, hzero]; rfl
    rw [if_pos hzero, if_pos hzero, hnone, List.take_zero]
    refine ⟨?_, fun _ => rfl⟩
    rw [Option.getD_none, UInt64.toNat_zero]
    omega
  · have hpos : length ≠ 0 := fun hnone =>
      hzero (UInt64.toNat_inj.mp (hsame.trans hnone))
    have hroom := hle.resolve_left hpos
    have hleft : (readLeft contentSize (readHeader [] front).2).toNat =
        length - (readHeader [] front).2.length := by
      have hint := read_left_to_nat contentSize (readHeader [] front).2
      have hlt := contentSize.toNat_lt
      omega
    simp only [if_neg hzero, Option.getD_some, hleft]
    refine ⟨by omega, fun hstatus => ?_⟩
    rw [transferExactly, hleft] at hstatus ⊢
    split_ifs at hstatus ⊢ with hrest
    · simp only
      rw [List.take_append, List.take_of_length_le hroom]
    · cases hstatus

/-- The octets asked for are the ones missing exactly when every length is a number that is not
negative, and the last one fits an `int` and is not below what is buffered, or is 0. -/
theorem parse_counts_iff (sock : Socket) (front rest : Bytes)
    (hread : readUntil (crlf ++ crlf) sock = some (front, rest)) (hsize : front.length < 2 ^ 64) :
    CountsBody sock (readHeader [] front).1 (readHeader [] front).2 rest ↔
      LengthsValid (readHeader [] front).1 ∧
        ∀ length : Nat, DeclaresBody (readHeader [] front).1 length →
          (length < 2 ^ 31 ∨ length = 2 ^ 64 - 1) ∧
            (length = 0 ∨ (readHeader [] front).2.length ≤ length) := by
  have hlong : ∀ line ∈ (readHeader [] front).1, line.length < 2 ^ 64 := fun line hline =>
    (((read_header_le [] front).2 line hline).resolve_left List.not_mem_nil).trans_lt hsize
  constructor
  · intro h
    have hvalid : LengthsValid (readHeader [] front).1 := by
      by_contra hinvalid
      exact not_refused hread hinvalid (h.refused hinvalid)
    exact ⟨hvalid, fun length hlength => length_of_counted hread hsize hlong hlength
      (h.counted length hvalid hlength) (h.body length hvalid hlength)⟩
  · rintro ⟨hvalid, hlengths⟩
    refine ⟨fun hinvalid => absurd hvalid hinvalid, fun length _ hlength => ?_,
      fun length _ hlength => ?_⟩
    · obtain ⟨hrange, hle⟩ := hlengths length hlength
      exact (counted_of_length hread hlong hlength hrange hle).1
    · obtain ⟨hrange, hle⟩ := hlengths length hlength
      exact (counted_of_length hread hlong hlength hrange hle).2

/-- The lines of a header that declares a length. -/
def lengthHeader (length : String) : List Bytes :=
  [ascii "POST / HTTP/1.1", ascii "Content-Length: " ++ ascii length]

/-- The header and the start of a body are in the buffer, and the rest of the body is to come. -/
theorem read_length_header (length : String) (hcr : 13 ∉ ascii length) (hlf : 10 ∉ ascii length)
    (body : Bytes) (ahead : Nat) :
    readUntil (crlf ++ crlf) ⟨lines (lengthHeader length) ++ 13 :: 10 :: body, ahead⟩ =
        some (lines (lengthHeader length) ++ 13 :: 10 :: body.take ahead, body.drop ahead) ∧
      readHeader [] (lines (lengthHeader length) ++ 13 :: 10 :: body.take ahead) =
        ((lengthHeader length).map (· ++ [13]), body.take ahead) := by
  have hfirst : IsHeaderLine (ascii "POST / HTTP/1.1") := ⟨by decide, by decide, by decide⟩
  have hname : 13 ∉ ascii "Content-Length: " ∧ 10 ∉ ascii "Content-Length: " := by decide
  have hsecond : ∀ l ∈ [ascii "Content-Length: " ++ ascii length], IsHeaderLine l := by
    rw [List.forall_mem_singleton]
    exact ⟨by simp [ascii], by simp [hname, hcr], by simp [hname, hlf]⟩
  exact ⟨read_until_lines _ _ hfirst hsecond body ahead,
    read_header_lines [] _ (List.forall_mem_cons.mpr ⟨hfirst, hsecond⟩) _⟩

/-- A header with a numeral for a length declares the number. -/
theorem length_header_valid (length : String) {n : Nat} (h : IsNumeral (ascii length) n) :
    LengthsValid ((lengthHeader length).map (· ++ [13])) ∧
      ∀ m : Nat, DeclaresBody ((lengthHeader length).map (· ++ [13])) m ↔ m = n := by
  have hfirst : find (ascii "Content-Length: ") (ascii "POST / HTTP/1.1" ++ [13]) = npos := rfl
  have hsecond : find (ascii "Content-Length: ")
      (ascii "Content-Length: " ++ ascii length ++ [13]) ≠ npos := by
    rw [find, index_of_prefix ⟨ascii length ++ [13], by simp⟩, Option.getD_some]
    decide
  have hlines : lengthLines ((lengthHeader length).map (· ++ [13])) =
      [ascii "Content-Length: " ++ ascii length ++ [13]] := by
    rw [lengthLines, lengthHeader, List.map_cons, List.filter_cons_of_neg (by simp [hfirst]),
      List.map_singleton, List.filter_cons_of_pos (by simpa using hsecond), List.filter_nil]
  have hline : Declares (ascii "Content-Length: " ++ ascii length ++ [13]) n := by
    have hname : ascii "Content-Length: " = ascii "Content-Length" ++ ascii ": " := by decide
    rw [hname, List.append_assoc, List.append_assoc]
    exact @Declares.line _ [] _ [] _ _ (by decide) (by simp) h (by simp) (.inr rfl)
  constructor
  · intro line hmem
    rw [hlines, List.mem_singleton] at hmem
    exact ⟨n, hmem ▸ hline⟩
  · intro m
    rw [DeclaresBody, hlines]
    constructor
    · rintro ⟨line, hlast, hm⟩
      obtain rfl := Option.some.inj hlast
      exact Int.ofNat.inj (hm.value.symm.trans hline.value)
    · rintro rfl
      exact ⟨_, rfl, hline⟩

/-- A numeral of one digit. -/
theorem is_numeral_digit {b : UInt8} (h : isDigit b = true) : IsNumeral [b] (digitValue b) := by
  have hvalue : digitValue b = decimalValue [b] := by simp [decimalValue]
  rw [hvalue]
  exact .plain (List.cons_ne_nil b []) (by simpa using h)

/-- A body of three octets, of which one is in the buffer already. -/
theorem parse_counts_iff_split :
    ∃ front rest, readUntil (crlf ++ crlf)
        ⟨lines (lengthHeader "3") ++ 13 :: 10 :: ascii "[1]", 1⟩ = some (front, rest) ∧
      CountsBody ⟨lines (lengthHeader "3") ++ 13 :: 10 :: ascii "[1]", 1⟩
        (readHeader [] front).1 (readHeader [] front).2 rest := by
  obtain ⟨hread, hheader⟩ := read_length_header "3" (by decide) (by decide) (ascii "[1]") 1
  obtain ⟨hvalid, hlength⟩ := length_header_valid "3" (is_numeral_digit (b := 51) rfl)
  refine ⟨_, _, hread, (parse_counts_iff _ _ _ hread (by decide)).mpr ?_⟩
  rw [hheader]
  refine ⟨hvalid, fun length h => ?_⟩
  obtain rfl := (hlength length).mp h
  decide

/-- Two octets are buffered of a body that is declared to have one. -/
theorem parse_count_wraps :
    ¬ ∀ (sock : Socket) (front rest : Bytes),
      readUntil (crlf ++ crlf) sock = some (front, rest) → front.length < 2 ^ 64 →
      CountsBody sock (readHeader [] front).1 (readHeader [] front).2 rest := by
  intro h
  obtain ⟨hread, hheader⟩ := read_length_header "1" (by decide) (by decide) (ascii "ab") 2
  obtain ⟨hvalid, hlength⟩ := length_header_valid "1" (is_numeral_digit (b := 49) rfl)
  have hcounts := h _ _ _ hread (by decide)
  rw [hheader] at hcounts
  have hcount := hcounts.counted 1 hvalid ((hlength 1).mpr rfl)
  have hwrapped : transferCount ((ascii "ab").take 2) ((lengthHeader "1").map (· ++ [13])) =
      some 18446744073709551615 := by decide +kernel
  rw [hwrapped] at hcount
  exact absurd hcount (by decide)

end Gnostr.Relay
