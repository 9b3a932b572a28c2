import Gnostr.Wire.Text

/-!
# Messages over HTTP

`src/http/http.cc`. `make_post` frames a body with its length; `parse` reads a header line by
line out of a buffer, takes the length from it and reads what is still missing of the body.

The bytes of a connection arrive in an unknown rhythm: `read_until` stops somewhere behind the
first blank line, and how far behind is a field of the socket. `parse_make_post` says that it
does not matter.
-/

namespace Gnostr.Relay

open Wire

/-! ## Sockets -/

/-- A connected socket: the octets that arrive until the other side closes, and how many of them
`read_until` has taken beyond its delimiter when it stops. -/
structure Socket where
  incoming : Bytes
  ahead : Nat

/-- `asio::read_until`: the buffer and what is still to be read, or nothing when the delimiter
never arrives and the call throws. -/
def readUntil (delimiter : Bytes) (sock : Socket) : Option (Bytes × Bytes) :=
  (indexOf delimiter sock.incoming).map fun i =>
    (sock.incoming.take (i + delimiter.length + sock.ahead),
      sock.incoming.drop (i + delimiter.length + sock.ahead))

/-- `asio::read` with `transfer_exactly`, or nothing when the stream ends before. -/
def transferExactly (count : UInt64) (rest : Bytes) : Option Bytes :=
  if count.toNat ≤ rest.length then some (rest.take count.toNat) else none

/-! ## `http_msg_t` -/

/-- `http_msg_t`. -/
structure HttpMsg where
  contentSize : UInt64
  method : Bytes
  url : Bytes
  header : List Bytes
  msg : Bytes

/-- The constructor of `http_msg_t`. -/
def HttpMsg.new : HttpMsg where
  contentSize := 0
  method := []
  url := []
  header := []
  msg := []

/-- The ends of lines as HTTP writes them. -/
def crlf : Bytes :=
  [13, 10]

/-- `make_post`. -/
def makePost (host json : Bytes) : Bytes :=
  ascii "POST / HTTP/1.1" ++ crlf ++
  ascii "Host: " ++ host ++ crlf ++
  ascii "Connection: close" ++ crlf ++
  ascii "Content-Type: application/json" ++ crlf ++
  ascii "Content-Length: " ++ decimal json.length ++ crlf ++
  crlf ++
  json

/-- `get_method`. -/
def getMethod (header : Bytes) : Bytes :=
  if header.take 4 = ascii "HTTP" then []
  else
    let pos := find (ascii " ") header
    if pos = npos then [] else header.take pos

/-- `get_url`. The position behind the space is inside the line, so `substr` does not throw. -/
def getUrl (header : Bytes) : Bytes :=
  if header.take 4 = ascii "HTTP" then []
  else
    let pos := find (ascii " ") header
    let verPos := find (ascii " HTTP") header
    if pos = npos then []
    else if pos = verPos then []
    else (header.drop (pos + 1)).take (sizeSub (sizeSub verPos pos) 1)

/-- The header lines up to the blank one, pushed behind those already there, and the rest of the
buffer. -/
def readHeader (header : List Bytes) (buf : Bytes) : List Bytes × Bytes :=
  match _hline : getline buf with
  | none => (header, buf)
  | some (line, rest) =>
      if line = [13] then (header, rest) else readHeader (header ++ [line]) rest
termination_by buf.length
decreasing_by exact getline_shorter _hline

/-- The length a line declares, or nothing when `substr` throws. -/
def declaredLength (line : Bytes) : Option UInt64 := do
  let start := find (ascii ":") line + 2
  let stop := find [13] line
  let s ← substr line start (sizeSub stop 1)
  some (UInt64.ofInt (atoi (CStr.ofBytes s)).toInt)

/-- The loop that looks for `Content-Length`: the last line that has it decides. The first value
is the local variable, the second the field of the message. -/
def findLength (contentSize : UInt64) (http : HttpMsg) :
    List Bytes → Option (UInt64 × HttpMsg)
  | [] => some (contentSize, http)
  | line :: lines =>
      if find (ascii "Content-Length: ") line ≠ npos then do
        let contentSize ← declaredLength line
        findLength contentSize { http with contentSize := contentSize } lines
      else findLength contentSize http lines

/-- How much is still to be read when some octets are already buffered. -/
def readLeft (contentSize : UInt64) (buf : Bytes) : UInt64 :=
  if buf.length > 0 then contentSize - UInt64.ofNat buf.length else contentSize

/-- What `parse` does once the header has been read. -/
def parseBody (buf rest : Bytes) (http : HttpMsg) : Int × HttpMsg :=
  match http.header with
  | [] => (-1, http)
  | line :: _ =>
      let http := { http with method := getMethod line, url := getUrl line }
      match findLength 0 http http.header with
      | none => (-1, http)
      | some (contentSize, http) =>
          -- without a length there is nothing to read: an acknowledgement
          if http.contentSize = 0 then (0, http)
          else
            match transferExactly (readLeft contentSize buf) rest with
            | none => (-1, http)
            | some more => (0, { http with msg := buf ++ more })

/-- `http::parse`: the status and the message. -/
def parse (sock : Socket) (http : HttpMsg) : Int × HttpMsg :=
  match readUntil (crlf ++ crlf) sock with
  | none => (-1, http)
  | some (buf, rest) =>
      let (header, buf) := readHeader http.header buf
      parseBody buf rest { http with header := header }

/-! ## Reading a header -/

/-- Lines with their ends. -/
def lines (ls : List Bytes) : Bytes :=
  ls.flatMap (· ++ crlf)

/-- One line more. -/
@[simp] theorem lines_cons (l : Bytes) (ls : List Bytes) :
    lines (l :: ls) = l ++ 13 :: 10 :: lines ls := by
  simp [lines, crlf]

/-- A header line: not blank, and free of the octets that end lines. -/
structure IsHeaderLine (l : Bytes) : Prop where
  ne_nil : l ≠ []
  no_cr : 13 ∉ l
  no_lf : 10 ∉ l

/-- The first blank line is the one behind the header. -/
theorem index_of_blank_line (l : Bytes) (ls : List Bytes) (hl : IsHeaderLine l)
    (hls : ∀ l ∈ ls, IsHeaderLine l) (body : Bytes) :
    indexOf [13, 10, 13, 10] (lines (l :: ls) ++ 13 :: 10 :: body) =
      some (l.length + (lines ls).length) := by
  induction ls generalizing l with
  | nil =>
      have hhere : indexOf [13, 10, 13, 10] (13 :: 10 :: 13 :: 10 :: body) = some 0 :=
        index_of_prefix ⟨body, rfl⟩
      have hskip : indexOf [13, 10, 13, 10] (l ++ 13 :: 10 :: 13 :: 10 :: body) = _ :=
        index_of_skip hl.no_cr _
      rw [hhere] at hskip
      simpa [lines, crlf] using hskip
  | cons m ls ih =>
      have hm := hls m List.mem_cons_self
      have hrest := ih m hm fun l hl => hls l (List.mem_cons_of_mem _ hl)
      obtain ⟨c, cs, rfl⟩ := List.exists_cons_of_ne_nil hm.ne_nil
      have hc : (13 : UInt8) ≠ c := fun heq => hm.no_cr (heq ▸ List.mem_cons_self)
      -- the end of the line is followed by the first octet of the next one
      have hend : ∀ t, indexOf [13, 10, 13, 10] (13 :: 10 :: c :: t) =
          (indexOf [13, 10, 13, 10] (c :: t)).map (· + 2) := fun t => by
        have hno : ¬ [13, 10, 13, 10] <+: 13 :: 10 :: c :: t := by simp [hc]
        have hno' : ¬ [13, 10, 13, 10] <+: 10 :: c :: t := by simp
        rw [indexOf, if_neg hno, indexOf, if_neg hno', Option.map_map]
        rfl
      rw [lines_cons, List.append_assoc, index_of_skip hl.no_cr, List.cons_append, List.cons_append,
        lines_cons, List.cons_append, List.cons_append, hend, ← List.cons_append,
        ← List.cons_append, ← lines_cons, hrest]
      simp
      omega

/-- The header is read line by line, to the empty one. -/
theorem read_header_step {header : List Bytes} {buf line rest : Bytes}
    (h : getline buf = some (line, rest)) :
    readHeader header buf =
      if line = [13] then (header, rest) else readHeader (header ++ [line]) rest := by
  rw [readHeader]
  split
  · next hnone => rw [h] at hnone; cases hnone
  · next line' rest' hline =>
    rw [h] at hline
    obtain ⟨rfl, rfl⟩ := Prod.mk.inj (Option.some.inj hline)
    rfl

/-- The lines of a header are read up to the blank one. -/
theorem read_header_lines (header ls : List Bytes) (hls : ∀ l ∈ ls, IsHeaderLine l)
    (body : Bytes) :
    readHeader header (lines ls ++ 13 :: 10 :: body) = (header ++ ls.map (· ++ [13]), body) := by
  induction ls generalizing header with
  | nil =>
      have hblank : getline (13 :: 10 :: body) = some ([13], body) :=
        getline_line (show 10 ∉ [13] by decide) body
      rw [lines, List.flatMap_nil, List.nil_append, read_header_step hblank, if_pos rfl,
        List.map_nil, List.append_nil]
  | cons l ls ih =>
      have hl := hls l List.mem_cons_self
      have hrest := ih (header ++ [l ++ [13]]) fun l hl => hls l (List.mem_cons_of_mem _ hl)
      have hline : 10 ∉ l ++ [13] := by simpa using hl.no_lf
      have hfirst : getline (lines (l :: ls) ++ 13 :: 10 :: body) =
          some (l ++ [13], lines ls ++ 13 :: 10 :: body) := by
        simpa using getline_line hline (lines ls ++ 13 :: 10 :: body)
      rw [read_header_step hfirst, if_neg (by simpa using hl.ne_nil), hrest]
      simp

/-- `read_until` stops somewhere in the body. -/
theorem read_until_lines (l : Bytes) (ls : List Bytes) (hl : IsHeaderLine l)
    (hls : ∀ l ∈ ls, IsHeaderLine l) (body : Bytes) (ahead : Nat) :
    readUntil (crlf ++ crlf) ⟨lines (l :: ls) ++ 13 :: 10 :: body, ahead⟩ =
      some (lines (l :: ls) ++ 13 :: 10 :: body.take ahead, body.drop ahead) := by
  have hindex : indexOf (crlf ++ crlf) (lines (l :: ls) ++ 13 :: 10 :: body) =
      some (l.length + (lines ls).length) := index_of_blank_line l ls hl hls body
  have hcut : l.length + (lines ls).length + (crlf ++ crlf).length + ahead =
      (lines (l :: ls) ++ [13, 10]).length + ahead := by
    simp [crlf]
    omega
  have hsplit : lines (l :: ls) ++ 13 :: 10 :: body = (lines (l :: ls) ++ [13, 10]) ++ body := by
    simp
  rw [readUntil, hindex, Option.map_some, hcut, hsplit, List.take_length_add_append,
    List.drop_length_add_append, List.append_assoc]
  rfl

/-- A header and a body are taken apart, wherever `read_until` stops. -/
theorem parse_lines (l : Bytes) (ls : List Bytes) (hl : IsHeaderLine l)
    (hls : ∀ l ∈ ls, IsHeaderLine l) (body : Bytes) (ahead : Nat) (http : HttpMsg) :
    parse ⟨lines (l :: ls) ++ 13 :: 10 :: body, ahead⟩ http =
      parseBody (body.take ahead) (body.drop ahead)
        { http with header := http.header ++ (l :: ls).map (· ++ [13]) } := by
  have hall : ∀ m ∈ l :: ls, IsHeaderLine m := List.forall_mem_cons.mpr ⟨hl, hls⟩
  simp only [parse, read_until_lines l ls hl hls body ahead, read_header_lines _ _ hall]

/-! ## Reading a body -/

/-- The lines `make_post` writes. -/
def postLines (host : Bytes) (size : Nat) : List Bytes :=
  [ascii "Host: " ++ host, ascii "Connection: close", ascii "Content-Type: application/json",
    ascii "Content-Length: " ++ decimal size]

/-- A request is its lines, an empty line and the body. -/
theorem make_post_eq (host json : Bytes) :
    makePost host json =
      lines (ascii "POST / HTTP/1.1" :: postLines host json.length) ++ 13 :: 10 :: json := by
  simp [makePost, postLines, lines, crlf]

/-- Every line of it is a header line. -/
theorem is_header_line_post {host : Bytes} (hcr : 13 ∉ host) (hlf : 10 ∉ host) (size : Nat) :
    ∀ l ∈ postLines host size, IsHeaderLine l := by
  have hdigit : ∀ b ∈ decimal size, isDigit b = true := fun b hb => is_digit_of_mem_decimal hb
  have hends : (13 ∉ decimal size) ∧ 10 ∉ decimal size :=
    ⟨fun h => absurd (hdigit 13 h) (by decide), fun h => absurd (hdigit 10 h) (by decide)⟩
  have hnames : (13 ∉ ascii "Host: " ∧ 10 ∉ ascii "Host: ") ∧
      13 ∉ ascii "Content-Length: " ∧ 10 ∉ ascii "Content-Length: " := by decide
  simp only [postLines, List.forall_mem_cons, List.not_mem_nil, false_implies, implies_true,
    and_true]
  refine ⟨⟨?_, ?_, ?_⟩, ⟨by decide, by decide, by decide⟩, ⟨by decide, by decide, by decide⟩,
    ⟨?_, ?_, ?_⟩⟩
  · simp [ascii]
  · simp [hnames, hcr]
  · simp [hnames, hlf]
  · simp [ascii]
  · simp [hnames, hends]
  · simp [hnames, hends]

/-- The length line declares the length it was made from. -/
theorem declared_length_post {size : Nat} (hsize : size < 2 ^ 31) :
    declaredLength (ascii "Content-Length: " ++ decimal size ++ [13]) =
      some (UInt64.ofNat size) := by
  have hdigit : ∀ b ∈ decimal size, isDigit b = true := fun b hb => is_digit_of_mem_decimal hb
  have hcolon : find (ascii ":") (ascii "Content-Length: " ++ decimal size ++ [13]) = 14 :=
    find_octet (b := 58) (t := ascii "Content-Length") (by decide) (32 :: (decimal size ++ [13]))
  have hname : (ascii "Content-Length: ").length = 16 := by decide
  have hend : find [13] (ascii "Content-Length: " ++ decimal size ++ [13]) =
      16 + (decimal size).length := by
    have hno : 13 ∉ ascii "Content-Length: " ++ decimal size := by
      have hcr : 13 ∉ ascii "Content-Length: " := by decide
      have hcr' : 13 ∉ decimal size := fun h => absurd (hdigit 13 h) (by decide)
      simp [hcr, hcr']
    simpa [hname] using find_octet hno []
  have hlen : (decimal size).length ≤ 10 := (length_decimal_le_iff (by omega)).mpr (by omega)
  have hcut : substr (ascii "Content-Length: " ++ decimal size ++ [13]) (14 + 2)
      (sizeSub (16 + (decimal size).length) 1) = some (decimal size ++ [13]) := by
    have hsub : sizeSub (16 + (decimal size).length) 1 = 15 + (decimal size).length := by
      unfold sizeSub
      omega
    rw [substr, if_pos (by simp [hname]), hsub, List.append_assoc,
      List.drop_left' hname, List.take_of_length_le (by simp)]
  have hnul : 0 ∉ decimal size ++ [13] := by
    have hno : 0 ∉ decimal size := fun h => absurd (hdigit 0 h) (by decide)
    simp [hno]
  have hatoi : atoi (CStr.ofBytes (decimal size ++ [13])) = Int32.ofNat size :=
    atoi_decimal hsize (c := 13) (by decide) (CStr.bytes_of_bytes hnul)
  have hint : (Int32.ofNat size).toInt = size := Int32.toInt_ofNat_of_lt hsize
  have hword : UInt64.ofInt size = UInt64.ofNat size := by
    have hmod : ((size : Int) % 2 ^ 64).toNat = size := by omega
    rw [UInt64.ofInt, hmod]
  simp only [declaredLength, hcolon, hend, hcut, hatoi, hint, hword, Option.bind_eq_bind,
    Option.bind_some]

/-- The lines of a post declare the length of the body, and nothing else does. -/
theorem find_length_post {host : Bytes} (hhost : ¬ ascii "Content-Length: " <:+: host)
    {size : Nat} (hsize : size < 2 ^ 31) (http : HttpMsg) :
    findLength 0 http ((ascii "POST / HTTP/1.1" :: postLines host size).map (· ++ [13])) =
      some (UInt64.ofNat size, { http with contentSize := UInt64.ofNat size }) := by
  have hpost : find (ascii "Content-Length: ") (ascii "POST / HTTP/1.1" ++ [13]) = npos :=
    rfl
  have hconnection :
      find (ascii "Content-Length: ") (ascii "Connection: close" ++ [13]) = npos :=
    rfl
  have htype : find (ascii "Content-Length: ")
      (ascii "Content-Type: application/json" ++ [13]) = npos :=
    rfl
  have hline : find (ascii "Content-Length: ") (ascii "Host: " ++ host ++ [13]) = npos := by
    rw [List.append_assoc]
    have hspelled : ascii "Content-Length: " = 67 :: ascii "ontent-Length:" ++ [32] := by decide
    rw [hspelled] at hhost ⊢
    exact find_eq_npos (not_infix_framed (by decide) (by decide) hhost)
  have hlength : find (ascii "Content-Length: ")
      (ascii "Content-Length: " ++ decimal size ++ [13]) = 0 := by
    rw [find, index_of_prefix ⟨decimal size ++ [13], by simp⟩, Option.getD_some]
  have hnpos : (0 : Nat) ≠ npos := by decide
  simp only [postLines, List.map_cons, List.map_nil, findLength, hpost, hconnection, htype, hline,
    hlength, hnpos, ne_eq, not_true_eq_false, not_false_eq_true, if_false, if_true,
    declared_length_post hsize, Option.bind_eq_bind, Option.bind_some]

/-- A length below 2^31 is kept by the conversion. -/
theorem to_nat_size {n : Nat} (h : n < 2 ^ 31) : (UInt64.ofNat n).toNat = n := by
  rw [UInt64.toNat_ofNat']
  omega

/-- What is still to be read is what was not buffered. -/
theorem read_left_eq {body : Bytes} (h : body.length < 2 ^ 31) (ahead : Nat) :
    (readLeft (UInt64.ofNat body.length) (body.take ahead)).toNat = (body.drop ahead).length := by
  have hle : (body.take ahead).length ≤ body.length := by simp
  have hsplit : (body.take ahead).length + (body.drop ahead).length = body.length := by
    rw [← List.length_append, List.take_append_drop]
  unfold readLeft
  split_ifs with hbuf
  · rw [UInt64.toNat_sub, to_nat_size h, to_nat_size (by omega)]
    omega
  · rw [to_nat_size h]
    omega

/-- What `parse` makes of a post. -/
def postMsg (host body : Bytes) : HttpMsg where
  contentSize := UInt64.ofNat body.length
  method := ascii "POST"
  url := ascii "/"
  header := (ascii "POST / HTTP/1.1" :: postLines host body.length).map (· ++ [13])
  msg := body

/-- A request is taken apart into its header and its body. -/
theorem parse_post {host body : Bytes} (hcr : 13 ∉ host) (hlf : 10 ∉ host)
    (hhost : ¬ ascii "Content-Length: " <:+: host) (hbody : body.length < 2 ^ 31) (ahead : Nat) :
    parse ⟨makePost host body, ahead⟩ HttpMsg.new = (0, postMsg host body) := by
  have hfirst : IsHeaderLine (ascii "POST / HTTP/1.1") := ⟨by decide, by decide, by decide⟩
  have hmethod : getMethod (ascii "POST / HTTP/1.1" ++ [13]) = ascii "POST" := rfl
  have hurl : getUrl (ascii "POST / HTTP/1.1" ++ [13]) = ascii "/" := rfl
  have hparse := parse_lines (ascii "POST / HTTP/1.1") (postLines host body.length) hfirst
    (is_header_line_post hcr hlf _) body ahead HttpMsg.new
  rw [make_post_eq, hparse, parseBody]
  simp only [HttpMsg.new, List.nil_append, List.map_cons, hmethod, hurl]
  rw [← List.map_cons (f := fun l : Bytes => l ++ [13]), find_length_post hhost hbody]
  by_cases hempty : body = []
  · simp [hempty, postMsg]
  · have hsize : UInt64.ofNat body.length ≠ 0 := fun hzero => by
      have hnat : body.length = 0 := by rw [← to_nat_size hbody, hzero]; rfl
      exact hempty (List.length_eq_zero_iff.mp hnat)
    have htransfer : transferExactly (readLeft (UInt64.ofNat body.length) (body.take ahead))
        (body.drop ahead) = some (body.drop ahead) := by
      rw [transferExactly, read_left_eq hbody, if_pos le_rfl, List.take_length]
    simp [hsize, htransfer, postMsg]

/-- A post is read as it was made, wherever `read_until` stops in it. -/
theorem parse_make_post (host body : Bytes) (hcr : 13 ∉ host) (hlf : 10 ∉ host)
    (hhost : ¬ ascii "Content-Length: " <:+: host) (hbody : body.length < 2 ^ 31) (ahead : Nat) :
    ∃ http, parse ⟨makePost host body, ahead⟩ HttpMsg.new = (0, http) ∧
      http.method = ascii "POST" ∧ http.url = ascii "/" ∧ http.msg = body :=
  ⟨postMsg host body, parse_post hcr hlf hhost hbody ahead, rfl, rfl, rfl⟩

/-- A body of three octets, of which one is in the buffer already. -/
theorem parse_make_post_split :
    ∃ http, parse ⟨makePost (ascii "127.0.0.1") (ascii "[1]"), 1⟩ HttpMsg.new = (0, http) ∧
      http.method = ascii "POST" ∧ http.url = ascii "/" ∧ http.msg = ascii "[1]" :=
  parse_make_post (ascii "127.0.0.1") (ascii "[1]") (by decide) (by decide) (by decide +kernel)
    (by decide) 1

end Gnostr.Relay
