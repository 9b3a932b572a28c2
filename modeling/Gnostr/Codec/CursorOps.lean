import Gnostr.Codec.Cursor
import Gnostr.Wire.Octets
import Gnostr.Wire.Tape

/-!
# The other operations on a cursor

The rest of `include/cursor.h`: reading, moving back, reading behind the position, and the
operations on the buffer as a whole. A cursor in bounds is a tape (`Cursor.tape`), and every call
does to the buffer what its description by lists does to the tape, keeps the cursor in bounds and
leaves the memory outside the buffer alone (`call_refines`). The lengths in a call are `int`s that
are not negative (`Length`): with a negative one a cursor moves the other way.
-/

namespace Gnostr

open Wire

/-! ## The source -/

/-- `wipe_cursor`. -/
def wipeCursor (cur : Cursor) : Cursor :=
  { resetCursor cur with
    mem := cur.mem.store cur.start (List.replicate (cur.stop - cur.start) 0) }

/-- `cursor_eof`. -/
def cursorEof (cur : Cursor) : Bool :=
  cur.p == cur.stop

/-- `pull_byte`. -/
def pullByte (cur : Cursor) : Option UInt8 × Cursor :=
  if cur.p + 1 > cur.stop then (none, cur) else (some (cur.mem cur.p), cur.advance 1)

/-- The loop of `cursor_pull_c_str` over the given number of octets. -/
def pullCStrLoop : Nat → Cursor → Bool × Cursor
  | 0, cur => (false, cur)
  | n + 1, cur =>
      if cur.mem cur.p = 0 then (true, cur.advance 1) else pullCStrLoop n (cur.advance 1)

/-- `cursor_pull_c_str`, with the address it leaves in `str`. -/
def cursorPullCStr (cur : Cursor) : Bool × Nat × Cursor :=
  let (ok, cur') := pullCStrLoop (cur.stop - cur.p) cur
  (ok, cur.p, cur')

/-- `cursor_pull_c_str` and the string a caller finds in `str`. -/
def pulledCStr (cur : Cursor) : Option Bytes × Cursor :=
  let (ok, str, cur') := cursorPullCStr cur
  (if ok then some (CStr.ofBytes (cur'.mem.slice str cur'.stop)).bytes else none, cur')

/-- `cursor_pull`. A negative length passes the test, and `memcpy` is then asked for more octets
than any buffer has: nothing. -/
def cursorPull (len : Int32) (cur : Cursor) : Option (Option Bytes × Cursor) :=
  if cur.p + len.toInt > cur.stop then some (none, cur)
  else if len.toInt < 0 then none
  else
    let n := len.toInt.toNat
    some (some (cur.mem.slice cur.p (cur.p + n)), cur.advance n)

/-- An `int`. -/
def intRange (n : Int) : Prop :=
  -2 ^ 31 ≤ n ∧ n < 2 ^ 31

instance (n : Int) : Decidable (intRange n) :=
  inferInstanceAs (Decidable (_ ∧ _))

/-- `cursor_dropn`. A product that leaves the range of `int` has no value. -/
def cursorDropn (size n : Int32) (cur : Cursor) : Option (Bool × Cursor) :=
  if n = 0 then some (true, cur)
  else
    let k := size.toInt * n.toInt
    if ¬ intRange k then none
    else if cur.p - k < cur.start then some (false, cur)
    else some (true, { cur with p := (cur.p - k).toNat })

/-- `cursor_drop`. -/
def cursorDrop (size : Int32) : Cursor → Option (Bool × Cursor) :=
  cursorDropn size 1

/-- `cursor_topn`, an address. -/
def cursorTopn (len n : Int32) (cur : Cursor) : Option (Option Nat) :=
  let k := len.toInt * (n.toInt + 1)
  if ¬ intRange (n.toInt + 1) ∨ ¬ intRange k then none
  else if cur.p - k < cur.start then some none
  else some (some (cur.p - k).toNat)

/-- `cursor_top`, an address. -/
def cursorTop (len : Int32) (cur : Cursor) : Option Nat :=
  if cur.p - len.toInt < cur.start then none else some (cur.p - len.toInt).toNat

/-- The `int` that stands in memory. -/
def readInt (order : ByteOrder) (t : Bytes) : Int32 :=
  (UInt32.ofNat (order.read t)).toInt32

/-- An `int` as it stands in memory. -/
def writeInt (order : ByteOrder) (i : Int32) : Bytes :=
  order.write 4 i.toUInt32.toNat

/-- `cursor_top_int`. -/
def cursorTopInt (order : ByteOrder) (cur : Cursor) : Option Int32 :=
  (cursorTop 4 cur).map fun a => readInt order (cur.mem.slice a (a + 4))

/-- `cursor_pop`. As in `cursor_pull`, a negative length is left to `memcpy`. -/
def cursorPop (len : Int32) (cur : Cursor) : Option (Option Bytes × Cursor) :=
  if cur.p - len.toInt < cur.start then some (none, cur)
  else if len.toInt < 0 then none
  else
    let p := (cur.p - len.toInt).toNat
    some (some (cur.mem.slice p (p + len.toInt.toNat)), { cur with p := p })

/-- `cursor_push_int`. -/
def cursorPushInt (order : ByteOrder) (i : Int32) (cur : Cursor) : Option (Bool × Cursor) :=
  cursorPushLen (writeInt order i) 4 cur

/-- `cursor_push_u16`. -/
def cursorPushU16 (order : ByteOrder) (i : UInt16) (cur : Cursor) : Option (Bool × Cursor) :=
  cursorPushLen (order.write 2 i.toNat) 2 cur

/-- `cursor_pull_int`. -/
def cursorPullInt (order : ByteOrder) (cur : Cursor) : Option (Option Int32 × Cursor) :=
  (cursorPull 4 cur).map fun r => (r.1.map (readInt order), r.2)

/-- `push_sized_str`. -/
def pushSizedStr (str : Bytes) (len : Int32) : Cursor → Option (Bool × Cursor) :=
  cursorPushLen str len

/-- `cursor_push_c_str`. -/
def cursorPushCStr (str : CStr) (cur : Cursor) : Option (Bool × Cursor) :=
  match cursorPushStrLen str cur with
  | some (true, cur') => some (cursorPushByte 0 cur')
  | r => r

/-- `cursor_count`. The length is an `int` that is converted to a `size_t`; a division by zero has
no value. -/
def cursorCount (elemSize : UInt64) (cur : Cursor) : Option UInt64 :=
  if elemSize = 0 then none
  else some ((Int32.ofNat (cursorLen cur)).toInt64.toUInt64 / elemSize)

/-- `index_cursor`, an address. The product is unsigned. -/
def indexCursor (index : UInt32) (elemSize : Int32) (cur : Cursor) : Option Nat :=
  let p := cur.start + (elemSize.toUInt32 * index).toNat
  if p ≥ cur.stop then none else some p

/-! ## Buffers as tapes -/

/-- The length of a slice. -/
@[simp] theorem Mem.length_slice (mem : Mem) (a b : Nat) : (mem.slice a b).length = b - a := by
  simp [slice]

/-- The first octets of a slice. -/
theorem Mem.take_slice (mem : Mem) {a b n : Nat} (h : a + n ≤ b) :
    (mem.slice a b).take n = mem.slice a (a + n) := by
  rw [mem.slice_append (Nat.le_add_right a n) h, List.take_left' (by simp)]

/-- A slice without its first octets. -/
theorem Mem.drop_slice (mem : Mem) {a b n : Nat} (h : a + n ≤ b) :
    (mem.slice a b).drop n = mem.slice (a + n) b := by
  rw [mem.slice_append (Nat.le_add_right a n) h, List.drop_left' (by simp)]

/-- Memories that agree on a slice. -/
theorem Mem.slice_congr {mem mem' : Mem} {a b : Nat} (h : ∀ i, a ≤ i → i < b → mem i = mem' i) :
    mem.slice a b = mem'.slice a b := by
  refine List.map_congr_left fun i hi => h _ (Nat.le_add_right a i) ?_
  have hlt := List.mem_range.mp hi
  omega

/-- The first octet of a slice. -/
theorem Mem.slice_cons (mem : Mem) {a b : Nat} (h : a < b) :
    mem.slice a b = mem a :: mem.slice (a + 1) b := by
  rw [mem.slice_append (Nat.le_succ a) h]
  simp [slice]

namespace Cursor

/-- The position lies in the buffer. -/
structure InBounds (cur : Cursor) : Prop where
  lower : cur.start ≤ cur.p
  upper : cur.p ≤ cur.stop

/-- The buffer as a tape. -/
def tape (cur : Cursor) : Tape UInt8 :=
  ⟨cur.text, cur.mem.slice cur.p cur.stop⟩

/-- `cur->p -= n`. -/
def retreat (cur : Cursor) (n : Nat) : Cursor :=
  { cur with p := cur.p - n }

/-- `cur'` is a cursor over the same buffer, and the memory outside the buffer is the same. -/
structure Stays (cur cur' : Cursor) : Prop where
  start : cur'.start = cur.start
  stop : cur'.stop = cur.stop
  bounds : cur'.InBounds
  outside : ∀ i, i < cur.start ∨ cur.stop ≤ i → cur'.mem i = cur.mem i

variable {cur : Cursor} (h : cur.InBounds)

/-- The length of what is in front of the position. -/
@[simp] theorem length_before (cur : Cursor) : cur.tape.before.length = cur.p - cur.start := by
  simp [tape, text]

/-- The length of what is behind it. -/
@[simp] theorem length_after (cur : Cursor) : cur.tape.after.length = cur.stop - cur.p := by
  simp [tape]

/-- The last octets before the position. -/
theorem last_tape {n : Nat} (hn : cur.start + n ≤ cur.p) :
    cur.tape.last n = cur.mem.slice (cur.p - n) cur.p := by
  have hp : cur.start + (cur.p - cur.start - n) = cur.p - n := by omega
  rw [Tape.last, length_before]
  show cur.text.drop (cur.p - cur.start - n) = _
  rw [text, cur.mem.drop_slice (by omega), hp]

include h

/-- A cursor stays where it is. -/
theorem stays_refl : cur.Stays cur :=
  ⟨rfl, rfl, h, fun _ _ => rfl⟩

/-- All that is in the buffer. -/
theorem contents_tape : cur.tape.contents = cur.mem.slice cur.start cur.stop :=
  (cur.mem.slice_append h.lower h.upper).symm

/-- Advancing within the bounds leaves the cursor in its place in memory. -/
theorem stays_advance {n : Nat} (hn : cur.p + n ≤ cur.stop) : cur.Stays (cur.advance n) :=
  ⟨rfl, rfl, ⟨Nat.le_add_right_of_le h.lower, hn⟩, fun _ _ => rfl⟩

/-- On the tape it is a move forward. -/
theorem tape_advance {n : Nat} (hn : cur.p + n ≤ cur.stop) :
    (cur.advance n).tape = cur.tape.forward n := by
  refine Tape.ext ?_ ?_
  · show cur.mem.slice cur.start (cur.p + n) = cur.text ++ (cur.mem.slice cur.p cur.stop).take n
    rw [cur.mem.take_slice hn, text, ← cur.mem.slice_append h.lower (Nat.le_add_right cur.p n)]
  · show cur.mem.slice (cur.p + n) cur.stop = (cur.mem.slice cur.p cur.stop).drop n
    rw [cur.mem.drop_slice hn]

/-- So does going back. -/
theorem stays_retreat {n : Nat} (hn : cur.start + n ≤ cur.p) : cur.Stays (cur.retreat n) :=
  ⟨rfl, rfl, ⟨Nat.le_sub_of_add_le hn, (Nat.sub_le cur.p n).trans h.upper⟩, fun _ _ => rfl⟩

/-- On the tape that is a move back. -/
theorem tape_retreat {n : Nat} (hn : cur.start + n ≤ cur.p) :
    (cur.retreat n).tape = cur.tape.back n := by
  have hp : cur.start + (cur.p - cur.start - n) = cur.p - n := by omega
  have hle : cur.start + (cur.p - cur.start - n) ≤ cur.p := by omega
  rw [Tape.back, length_before]
  refine Tape.ext ?_ ?_
  · show cur.mem.slice cur.start (cur.p - n) = cur.text.take (cur.p - cur.start - n)
    rw [text, cur.mem.take_slice hle, hp]
  · show cur.mem.slice (cur.p - n) cur.stop = cur.text.drop (cur.p - cur.start - n) ++ _
    rw [text, cur.mem.drop_slice hle, hp]
    exact cur.mem.slice_append (Nat.sub_le cur.p n) h.upper

/-- So does writing. -/
theorem stays_write {t : Bytes} (ht : cur.p + t.length ≤ cur.stop) : cur.Stays (cur.write t) where
  start := rfl
  stop := rfl
  bounds := ⟨Nat.le_add_right_of_le h.lower, ht⟩
  outside i hi := cur.mem.store_outside cur.p t (by
    have hlower := h.lower
    omega)

/-- On the tape that is a write. -/
theorem tape_write {t : Bytes} (ht : cur.p + t.length ≤ cur.stop) :
    (cur.write t).tape = cur.tape.write t := by
  refine Tape.ext (appends_write h.lower t).text ?_
  show (cur.mem.store cur.p t).slice (cur.p + t.length) cur.stop =
    (cur.mem.slice cur.p cur.stop).drop t.length
  rw [cur.mem.drop_slice ht]
  exact Mem.slice_congr fun i hi _ => cur.mem.store_outside cur.p t (.inr hi)

end Cursor

/-! ## What the operations do -/

/-- `r` is what an operation does to `cur` when it does `s` to the tape. -/
structure Refines {β : Type} (cur : Cursor) (r : Option (β × Cursor))
    (s : Option (β × Tape UInt8)) : Prop where
  tape : r.map (Prod.map id Cursor.tape) = s
  stays : ∀ x ∈ r, cur.Stays x.2

/-- Undefined behaviour on both sides. -/
theorem refines_none {β : Type} (cur : Cursor) : Refines (β := β) cur none none :=
  ⟨rfl, by simp⟩

/-- A result on both sides, and the cursor in its place. -/
theorem refines_some {β : Type} {cur cur' : Cursor} {t : Tape UInt8} (h : cur.Stays cur')
    (ht : cur'.tape = t) (b : β) : Refines cur (some (b, cur')) (some (b, t)) := by
  refine ⟨congrArg (fun t => some (b, t)) ht, ?_⟩
  rintro x ⟨⟩
  exact h

/-- An operation that leaves the cursor as it is. -/
theorem refines_same {β : Type} {cur : Cursor} (h : cur.InBounds) (b : β) :
    Refines cur (some (b, cur)) (some (b, cur.tape)) :=
  refines_some (Cursor.stays_refl h) rfl b

/-- Only the value that is returned is computed further. -/
theorem Refines.map {β γ : Type} {cur : Cursor} {r : Option (β × Cursor)}
    {s : Option (β × Tape UInt8)} (h : Refines cur r s) (f : β → γ) :
    Refines cur (r.map (Prod.map f id)) (s.map (Prod.map f id)) := by
  constructor
  · rw [← h.tape, Option.map_map, Option.map_map]
    rfl
  · intro x hx
    obtain ⟨y, hy, rfl⟩ := Option.mem_map.mp hx
    exact h.stays y hy

/-- An `int` that is not negative. -/
structure Length where
  int : Int32
  nonneg : 0 ≤ int.toInt

/-- The number. -/
def Length.toNat (n : Length) : Nat :=
  n.int.toInt.toNat

/-- A length is a non-negative `int`. -/
theorem Length.to_int (n : Length) : n.int.toInt = n.toNat :=
  (Int.toNat_of_nonneg n.nonneg).symm

/-- It is below 2^31. -/
theorem Length.lt (n : Length) : n.toNat < 2 ^ 31 := by
  have hlt := n.int.toInt_lt
  have hint := n.to_int
  omega

/-- A block whose length is an `int`. -/
structure Chunk where
  bytes : Bytes
  short : bytes.length < 2 ^ 31

/-- The length of a block. -/
def Chunk.int (t : Chunk) : Int32 :=
  Int32.ofNat t.bytes.length

/-- The length of a chunk is an `int`. -/
theorem Chunk.to_int (t : Chunk) : t.int.toInt = t.bytes.length :=
  Int32.toInt_ofNat_of_lt t.short

/-- The length of a block as a length. -/
def Chunk.length (t : Chunk) : Length :=
  ⟨t.int, t.to_int ▸ Int.natCast_nonneg _⟩

/-- A string whose length is an `int`. -/
structure ShortStr where
  str : CStr
  short : str.strlen < 2 ^ 31

namespace OnTape

/-- Write a block when one place is to spare. -/
def push (t : Bytes) (tape : Tape UInt8) : Bool × Tape UInt8 :=
  if t.length < tape.after.length then (true, tape.write t) else (false, tape)

/-- Write an octet. -/
def pushByte (c : UInt8) (tape : Tape UInt8) : Bool × Tape UInt8 :=
  if tape.after = [] then (false, tape) else (true, tape.write [c])

/-- Write a string and its terminator. -/
def pushCStr (t : Bytes) (tape : Tape UInt8) : Bool × Tape UInt8 :=
  if t.length < tape.after.length then (true, tape.write (t ++ [0])) else (false, tape)

/-- Read the next octet. -/
def pullByte (tape : Tape UInt8) : Option UInt8 × Tape UInt8 :=
  (tape.after.head?, tape.forward 1)

/-- Read what comes next. -/
def pull (n : Nat) (tape : Tape UInt8) : Option Bytes × Tape UInt8 :=
  if n ≤ tape.after.length then (some (tape.after.take n), tape.forward n) else (none, tape)

/-- Read up to the next NUL and move behind it, or to the end if there is none. -/
def pullCStr (tape : Tape UInt8) : Option Bytes × Tape UInt8 :=
  let str := tape.after.takeWhile (· ≠ 0)
  (if 0 ∈ tape.after then some str else none, tape.forward (str.length + 1))

/-- Move back. -/
def drop (n : Nat) (tape : Tape UInt8) : Bool × Tape UInt8 :=
  if n ≤ tape.before.length then (true, tape.back n) else (false, tape)

/-- Read what comes before. -/
def top (n : Nat) (tape : Tape UInt8) : Option Bytes :=
  if n ≤ tape.before.length then some (tape.last n) else none

/-- Move back over `n` elements, when their length is an `int`. -/
def dropn (size n : Nat) (tape : Tape UInt8) : Option (Bool × Tape UInt8) :=
  if size * n < 2 ^ 31 then some (drop (size * n) tape) else none

/-- Read the element that `n` others follow, when the numbers are `int`s. -/
def topn (len n : Nat) (tape : Tape UInt8) : Option (Option Bytes) :=
  if n + 1 < 2 ^ 31 ∧ len * (n + 1) < 2 ^ 31 then
    some ((top (len * (n + 1)) tape).map (List.take len))
  else none

/-- How many elements stand before the place, with the length as an `int`. -/
def count (elemSize : UInt64) (tape : Tape UInt8) : Option UInt64 :=
  if elemSize = 0 then none
  else some ((Int32.ofNat tape.before.length).toInt64.toUInt64 / elemSize)

/-- The offset of an element. -/
def index (i : UInt32) (elemSize : Int32) (tape : Tape UInt8) : Option Nat :=
  let offset := (elemSize.toUInt32 * i).toNat
  if offset < tape.contents.length then some offset else none

/-- Move back and read what was moved over. -/
def pop (n : Nat) (tape : Tape UInt8) : Option Bytes × Tape UInt8 :=
  if n ≤ tape.before.length then (some (tape.last n), tape.back n) else (none, tape)

end OnTape

section

variable {cur : Cursor} (h : cur.InBounds)

include h

/-- Pushing a byte does on the cursor what it does on the tape. -/
theorem refines_push_byte (c : UInt8) :
    Refines cur (some (cursorPushByte c cur)) (some (OnTape.pushByte c cur.tape)) := by
  have hlen := cur.length_after
  have hupper := h.upper
  rw [cursorPushByte, OnTape.pushByte]
  by_cases hfull : cur.p + 1 > cur.stop
  · have hnil : cur.tape.after = [] := List.eq_nil_of_length_eq_zero (by omega)
    rw [if_pos hfull, if_pos hnil]
    exact refines_same h false
  · have hcons : cur.tape.after ≠ [] := List.ne_nil_of_length_pos (by omega)
    have hfits : cur.p + [c].length ≤ cur.stop := Nat.le_of_not_lt hfull
    rw [if_neg hfull, if_neg hcons]
    exact refines_some (Cursor.stays_write h hfits) (Cursor.tape_write h hfits) true

/-- So does pushing bytes. -/
theorem refines_push_len {t : Bytes} {len : Int32} (hlen : len.toInt = t.length) :
    Refines cur (cursorPushLen t len cur) (some (OnTape.push t cur.tape)) := by
  have hupper := h.upper
  rw [cursorPushLen, OnTape.push, cur.length_after, hlen]
  by_cases hfull : cur.p + t.length ≥ cur.stop
  · rw [if_pos (by exact_mod_cast hfull), if_neg (by omega)]
    exact refines_same h false
  · have hfits : cur.p + t.length ≤ cur.stop := by omega
    rw [if_neg (by exact_mod_cast hfull), if_neg (by omega), if_pos (by omega), Int.toNat_natCast,
      List.take_length]
    exact refines_some (Cursor.stays_write h hfits) (Cursor.tape_write h hfits) true

/-- So does pushing a string with its zero byte. -/
theorem refines_push_c_str (s : ShortStr) :
    Refines cur (cursorPushCStr s.str cur) (some (OnTape.pushCStr s.str.bytes cur.tape)) := by
  have hupper := h.upper
  have hlen : s.str.bytes.length = s.str.strlen := rfl
  rw [cursorPushCStr, cursor_push_str_len s.short, OnTape.pushCStr, cur.length_after]
  by_cases hfull : cur.p + s.str.bytes.length ≥ cur.stop
  · rw [cursorPushStr, cursorPush, if_pos hfull, if_neg (by omega)]
    exact refines_same h false
  · -- the place the block leaves is taken by the terminator
    have hbyte : ¬ (cur.write s.str.bytes).p + 1 > (cur.write s.str.bytes).stop := by
      rw [Cursor.write_p, Cursor.write_stop]
      omega
    have hfits : cur.p + (s.str.bytes ++ [0]).length ≤ cur.stop := by
      rw [List.length_append, List.length_singleton]
      omega
    rw [cursorPushStr, cursorPush, if_neg hfull, if_pos (by omega)]
    show Refines cur (some (cursorPushByte 0 (cur.write s.str.bytes))) _
    rw [cursorPushByte, if_neg hbyte, Cursor.write_write]
    exact refines_some (Cursor.stays_write h hfits) (Cursor.tape_write h hfits) true

/-- Pulling a byte does on the cursor what it does on the tape. -/
theorem refines_pull_byte :
    Refines cur (some (pullByte cur)) (some (OnTape.pullByte cur.tape)) := by
  have hupper := h.upper
  rw [pullByte, OnTape.pullByte]
  by_cases hfull : cur.p + 1 > cur.stop
  · have hnil : cur.tape.after = [] :=
      List.eq_nil_of_length_eq_zero (by rw [cur.length_after]; omega)
    have hsame : cur.tape.forward 1 = cur.tape :=
      Tape.ext (by simp [Tape.forward, hnil]) (by simp [Tape.forward, hnil])
    rw [if_pos hfull, hsame, hnil]
    exact refines_same h none
  · have hfits : cur.p + 1 ≤ cur.stop := Nat.le_of_not_lt hfull
    have hhead : cur.tape.after = cur.mem cur.p :: cur.mem.slice (cur.p + 1) cur.stop :=
      cur.mem.slice_cons hfits
    rw [if_neg hfull, hhead]
    exact refines_some (Cursor.stays_advance h hfits) (Cursor.tape_advance h hfits) _

/-- So does pulling bytes. -/
theorem refines_pull {len : Int32} {n : Nat} (hlen : len.toInt = n) :
    Refines cur (cursorPull len cur) (some (OnTape.pull n cur.tape)) := by
  have hupper := h.upper
  rw [cursorPull, OnTape.pull, cur.length_after, hlen]
  by_cases hfull : cur.p + n > cur.stop
  · rw [if_pos (by exact_mod_cast hfull), if_neg (by omega)]
    exact refines_same h none
  · have hfits : cur.p + n ≤ cur.stop := Nat.le_of_not_lt hfull
    have htake : cur.tape.after.take n = cur.mem.slice cur.p (cur.p + n) :=
      cur.mem.take_slice hfits
    rw [if_neg (by exact_mod_cast hfull), if_neg (by omega), if_pos (by omega), htake]
    exact refines_some (Cursor.stays_advance h hfits) (Cursor.tape_advance h hfits) _

omit h in
/-- The loop stops behind the first NUL, or at the end. -/
theorem pull_c_str_loop_eq (n : Nat) (cur : Cursor) :
    pullCStrLoop n cur =
      let t := cur.mem.slice cur.p (cur.p + n)
      (decide (0 ∈ t), cur.advance (min n ((t.takeWhile (· ≠ 0)).length + 1))) := by
  induction n generalizing cur with
  | zero => simp [pullCStrLoop, Mem.slice, Cursor.advance]
  | succ n ih =>
      have hcons : cur.mem.slice cur.p (cur.p + (n + 1)) =
          cur.mem cur.p :: (cur.advance 1).mem.slice (cur.p + 1) (cur.p + 1 + n) := by
        rw [cur.mem.slice_cons (by omega), Nat.add_right_comm, ← Nat.add_assoc]
        rfl
      rw [pullCStrLoop, hcons]
      by_cases hnul : cur.mem cur.p = 0
      · simp [hnul]
      · have hmin : ∀ k, min (n + 1) (k + 1 + 1) = 1 + min n (k + 1) := fun k => by omega
        rw [if_neg hnul, ih]
        simp only [Cursor.advance, List.takeWhile_cons, hnul, ne_eq, not_false_eq_true,
          decide_true, ite_true, List.length_cons, hmin, List.mem_cons, Ne.symm hnul, false_or,
          Nat.add_assoc]

/-- So does pulling a string with its zero byte. -/
theorem refines_pull_c_str :
    Refines cur (some (pulledCStr cur)) (some (OnTape.pullCStr cur.tape)) := by
  have hstop : cur.p + (cur.stop - cur.p) = cur.stop := Nat.add_sub_of_le h.upper
  have hafter : cur.mem.slice cur.p cur.stop = cur.tape.after := rfl
  have hfits : ∀ n, cur.p + min (cur.stop - cur.p) n ≤ cur.stop := fun n => by
    have hupper := h.upper
    omega
  rw [pulledCStr, cursorPullCStr, pull_c_str_loop_eq, hstop, hafter, OnTape.pullCStr,
    ← Tape.forward_min, cur.length_after]
  simp only [decide_eq_true_eq]
  exact refines_some (Cursor.stays_advance h (hfits _)) (Cursor.tape_advance h (hfits _)) _

/-- Going back does on the cursor what dropping does on the tape. -/
theorem refines_back {cur' : Cursor} {n : Nat} (hn : cur.start + n ≤ cur.p)
    (hcur : cur' = cur.retreat n) :
    Refines cur (some (true, cur')) (some (OnTape.drop n cur.tape)) := by
  have hlower := h.lower
  rw [OnTape.drop, cur.length_before, if_pos (by omega), hcur]
  exact refines_some (Cursor.stays_retreat h hn) (Cursor.tape_retreat h hn) true

/-- Moving back over `n` elements of a size, when the product is an `int`. -/
theorem refines_dropn (size n : Length) :
    Refines cur (cursorDropn size.int n.int cur) (OnTape.dropn size.toNat n.toNat cur.tape) := by
  have hlower := h.lower
  have hproduct : size.int.toInt * n.int.toInt = (size.toNat * n.toNat : Nat) := by
    rw [size.to_int, n.to_int, Nat.cast_mul]
  rw [OnTape.dropn]
  generalize hk : size.toNat * n.toNat = k at hproduct
  by_cases hzero : n.int = 0
  · have hn : n.toNat = 0 := by rw [Length.toNat, hzero]; rfl
    have hk : k = 0 := by rw [← hk, hn, Nat.mul_zero]
    rw [cursorDropn, if_pos hzero, hk, if_pos (by decide)]
    exact refines_back h h.lower rfl
  rw [cursorDropn, if_neg hzero, hproduct]
  dsimp only
  by_cases hrange : k < 2 ^ 31
  · rw [if_neg (by simp only [intRange]; omega), if_pos hrange]
    by_cases hfull : cur.start + k ≤ cur.p
    · rw [if_neg (by omega)]
      refine refines_back h hfull ?_
      rw [Cursor.retreat]
      congr 1
      omega
    · rw [if_pos (by omega), OnTape.drop, cur.length_before, if_neg (by omega)]
      exact refines_same h false
  · rw [if_pos (by simp only [intRange]; omega), if_neg hrange]
    exact refines_none cur

/-- So does `cursorDrop`. -/
theorem refines_drop (size : Length) :
    Refines cur (cursorDrop size.int cur) (some (OnTape.drop size.toNat cur.tape)) := by
  have hone : (⟨1, by decide⟩ : Length).toNat = 1 := rfl
  have hdrop := refines_dropn h size ⟨1, by decide⟩
  rwa [hone, OnTape.dropn, Nat.mul_one, if_pos size.lt] at hdrop

omit h in
/-- The octets at an address before the position. -/
theorem slice_back {k len : Nat} (hk : cur.start + k ≤ cur.p) (hlen : len ≤ k) :
    cur.mem.slice (cur.p - k) (cur.p - k + len) = (cur.tape.last k).take len := by
  rw [cur.last_tape hk, cur.mem.take_slice (by omega)]

/-- The top of the cursor is that of the tape. -/
theorem top_eq {len : Int32} {n : Nat} (hlen : len.toInt = n) :
    (cursorTop len cur).map (fun a => cur.mem.slice a (a + n)) = OnTape.top n cur.tape := by
  have hlower := h.lower
  rw [cursorTop, OnTape.top, cur.length_before, hlen]
  by_cases hfull : cur.start + n ≤ cur.p
  · have haddress : ((cur.p : Int) - n).toNat = cur.p - n := by omega
    rw [if_neg (by omega), if_pos (by omega), haddress, Option.map_some, slice_back hfull le_rfl,
      List.take_of_length_le (by simp [cur.last_tape hfull]; omega)]
  · rw [if_pos (by omega), if_neg (by omega), Option.map_none]

/-- The octets of the element that `n` others follow, when the numbers are `int`s. -/
theorem topn_eq (len n : Length) :
    (cursorTopn len.int n.int cur).map
        (fun a => a.map fun a => cur.mem.slice a (a + len.toNat)) =
      OnTape.topn len.toNat n.toNat cur.tape := by
  have hlower := h.lower
  rw [OnTape.topn]
  have hle : len.toNat ≤ len.toNat * (n.toNat + 1) := Nat.le_mul_of_pos_right _ n.toNat.succ_pos
  have hproduct : len.int.toInt * (n.int.toInt + 1) = (len.toNat * (n.toNat + 1) : Nat) := by
    rw [len.to_int, n.to_int]
    push_cast
    rfl
  generalize len.toNat * (n.toNat + 1) = k at hproduct hle
  rw [cursorTopn, hproduct, n.to_int]
  by_cases hrange : n.toNat + 1 < 2 ^ 31 ∧ k < 2 ^ 31
  · rw [if_neg (by simp only [intRange]; omega), if_pos hrange, OnTape.top, cur.length_before]
    by_cases hfull : cur.start + k ≤ cur.p
    · have haddress : ((cur.p : Int) - k).toNat = cur.p - k := by omega
      rw [if_neg (by omega), if_pos (by omega), haddress, Option.map_some, Option.map_some,
        slice_back hfull hle, Option.map_some]
    · rw [if_pos (by omega), if_neg (by omega)]
      rfl
  · rw [if_pos (by simp only [intRange]; omega), if_neg hrange, Option.map_none]

/-- An index stands for the same place. -/
theorem index_eq (i : UInt32) (elemSize : Int32) :
    (indexCursor i elemSize cur).map (· - cur.start) = OnTape.index i elemSize cur.tape := by
  have hlower := h.lower
  have hupper := h.upper
  rw [indexCursor, OnTape.index, Cursor.contents_tape h, Mem.length_slice]
  generalize (elemSize.toUInt32 * i).toNat = offset
  by_cases hfull : cur.start + offset ≥ cur.stop
  · rw [if_pos hfull, if_neg (by omega), Option.map_none]
  · rw [if_neg hfull, if_pos (by omega), Option.map_some, Nat.add_sub_cancel_left]

/-- Popping does on the cursor what it does on the tape. -/
theorem refines_pop (n : Length) :
    Refines cur (cursorPop n.int cur) (some (OnTape.pop n.toNat cur.tape)) := by
  have hlower := h.lower
  rw [cursorPop, OnTape.pop, cur.length_before, n.to_int]
  by_cases hfull : cur.start + n.toNat ≤ cur.p
  · have haddress : ((cur.p : Int) - n.toNat).toNat = cur.p - n.toNat := by omega
    have hlast : cur.mem.slice (cur.p - n.toNat) (cur.p - n.toNat + n.toNat) =
        cur.tape.last n.toNat := by
      rw [Nat.sub_add_cancel (by omega), cur.last_tape hfull]
    rw [if_neg (by omega), if_neg (by omega), if_pos (by omega)]
    dsimp only
    rw [haddress, Int.toNat_natCast, hlast]
    exact refines_some (Cursor.stays_retreat h hfull) (Cursor.tape_retreat h hfull) _
  · rw [if_pos (by omega), if_neg (by omega)]
    exact refines_same h none

/-- Resetting rewinds the tape. -/
theorem refines_reset : Refines cur (some ((), resetCursor cur)) (some ((), cur.tape.rewind)) := by
  have hstays : cur.Stays (resetCursor cur) :=
    ⟨rfl, rfl, ⟨le_rfl, h.lower.trans h.upper⟩, fun _ _ => rfl⟩
  refine refines_some hstays (Tape.ext ?_ ?_) ()
  · show cur.mem.slice cur.start cur.start = []
    simp [Mem.slice]
  · exact (Cursor.contents_tape h).symm

/-- Wiping leaves a tape of zeros. -/
theorem refines_wipe :
    Refines cur (some ((), wipeCursor cur))
      (some ((), Tape.fresh (List.replicate cur.tape.contents.length 0))) := by
  have hle := h.lower.trans h.upper
  have hlen : cur.start + (List.replicate (cur.stop - cur.start) (0 : UInt8)).length =
      cur.stop := by
    rw [List.length_replicate]
    omega
  have hstays : cur.Stays (wipeCursor cur) := by
    refine ⟨rfl, rfl, ⟨le_rfl, hle⟩, fun i hi => Mem.store_outside _ _ _ ?_⟩
    rwa [hlen]
  rw [Cursor.contents_tape h, Mem.length_slice]
  refine refines_some hstays (Tape.ext ?_ ?_) ()
  · show Mem.slice _ cur.start cur.start = []
    simp [Mem.slice]
  · have hslice := cur.mem.slice_store cur.start (List.replicate (cur.stop - cur.start) 0)
    rw [hlen] at hslice
    exact hslice

end

/-! ## Calls -/

/-- A call of one of the functions on a cursor. -/
inductive CursorCall where
  | pushByte (c : UInt8)
  | push (data : Chunk)
  | pushSizedStr (str : Chunk)
  | pushInt (i : Int32)
  | pushU16 (i : UInt16)
  | pushStr (str : ShortStr)
  | pushCStr (str : ShortStr)
  | pullByte
  | pull (len : Length)
  | pullInt
  | pullCStr
  | dropn (size n : Length)
  | drop (size : Length)
  | topn (len n : Length)
  | top (len : Length)
  | topInt
  | pop (len : Length)
  | reset
  | wipe
  | eof
  | len
  | count (elemSize : UInt64)
  | index (index : UInt32) (elemSize : Int32)
  | remainingCapacity

/-- What a caller learns: the value returned, with what the pointers that are handed back or filled
point to. -/
inductive Reply where
  | failed
  | done
  | octets (t : Bytes)
  | int (i : Int32)
  | size (n : UInt64)
  | offset (n : Nat)
  deriving DecidableEq

/-- The answer of a function that returns whether it succeeded. -/
def Reply.ofBool : Bool → Reply
  | true => done
  | false => failed

/-- The answer of a function that fails or delivers something. -/
def Reply.ofOption {α : Type} (f : α → Reply) : Option α → Reply
  | some a => f a
  | none => failed

/-- The answer of a call that may move. -/
def moving {α σ : Type} (f : α → Reply) (r : Option (α × σ)) : Option (Reply × σ) :=
  r.map (Prod.map f id)

/-- The answer of a call that only looks. -/
def looking {α σ : Type} (f : α → Reply) (s : σ) (r : Option α) : Option (Reply × σ) :=
  r.map fun a => (f a, s)

/-- The octets at an address that is not `NULL`. -/
def pointee (cur : Cursor) (n : Nat) : Option Nat → Option Bytes :=
  Option.map fun a => cur.mem.slice a (a + n)

/-- A call on a cursor: nothing if it has no value. -/
def CursorCall.run (order : ByteOrder) (cur : Cursor) : CursorCall → Option (Reply × Cursor)
  | pushByte c => moving .ofBool (some (cursorPushByte c cur))
  | push data => moving .ofBool (cursorPushLen data.bytes data.int cur)
  | pushSizedStr str => moving .ofBool (Gnostr.pushSizedStr str.bytes str.int cur)
  | pushInt i => moving .ofBool (cursorPushInt order i cur)
  | pushU16 i => moving .ofBool (cursorPushU16 order i cur)
  | pushStr str => moving .ofBool (cursorPushStrLen str.str cur)
  | pushCStr str => moving .ofBool (cursorPushCStr str.str cur)
  | pullByte => moving (.ofOption fun c => .octets [c]) (some (Gnostr.pullByte cur))
  | pull n => moving (.ofOption .octets) (cursorPull n.int cur)
  | pullInt => moving (.ofOption .int) (cursorPullInt order cur)
  | pullCStr => moving (.ofOption .octets) (some (pulledCStr cur))
  | dropn size n => moving .ofBool (cursorDropn size.int n.int cur)
  | drop size => moving .ofBool (cursorDrop size.int cur)
  | topn m n =>
      looking (.ofOption .octets) cur ((cursorTopn m.int n.int cur).map (pointee cur m.toNat))
  | top n => looking (.ofOption .octets) cur (some (pointee cur n.toNat (cursorTop n.int cur)))
  | topInt => looking (.ofOption .int) cur (some (cursorTopInt order cur))
  | pop n => moving (.ofOption .octets) (cursorPop n.int cur)
  | reset => some (.done, resetCursor cur)
  | wipe => some (.done, wipeCursor cur)
  | eof => looking .ofBool cur (some (cursorEof cur))
  | len => looking .int cur (some (Int32.ofNat (cursorLen cur)))
  | count elemSize => looking .size cur (cursorCount elemSize cur)
  | index i elemSize =>
      looking (.ofOption fun a => .offset (a - cur.start)) cur (some (indexCursor i elemSize cur))
  | remainingCapacity => looking .int cur (some (cursorRemainingCapacity cur))

/-- A call on a tape. -/
def CursorCall.onTape (order : ByteOrder) (tape : Tape UInt8) :
    CursorCall → Option (Reply × Tape UInt8)
  | pushByte c => moving .ofBool (some (OnTape.pushByte c tape))
  | push data | pushSizedStr data => moving .ofBool (some (OnTape.push data.bytes tape))
  | pushInt i => moving .ofBool (some (OnTape.push (writeInt order i) tape))
  | pushU16 i => moving .ofBool (some (OnTape.push (order.write 2 i.toNat) tape))
  | pushStr str => moving .ofBool (some (OnTape.push str.str.bytes tape))
  | pushCStr str => moving .ofBool (some (OnTape.pushCStr str.str.bytes tape))
  | pullByte => moving (.ofOption fun c => .octets [c]) (some (OnTape.pullByte tape))
  | pull n => moving (.ofOption .octets) (some (OnTape.pull n.toNat tape))
  | pullInt => moving (.ofOption fun t => .int (readInt order t)) (some (OnTape.pull 4 tape))
  | pullCStr => moving (.ofOption .octets) (some (OnTape.pullCStr tape))
  | dropn size n => moving .ofBool (OnTape.dropn size.toNat n.toNat tape)
  | drop size => moving .ofBool (some (OnTape.drop size.toNat tape))
  | topn m n => looking (.ofOption .octets) tape (OnTape.topn m.toNat n.toNat tape)
  | top n => looking (.ofOption .octets) tape (some (OnTape.top n.toNat tape))
  | topInt => looking (.ofOption fun t => .int (readInt order t)) tape (some (OnTape.top 4 tape))
  | pop n => moving (.ofOption .octets) (some (OnTape.pop n.toNat tape))
  | reset => some (.done, tape.rewind)
  | wipe => some (.done, .fresh (List.replicate tape.contents.length 0))
  | eof => looking .ofBool tape (some tape.after.isEmpty)
  | len => looking .int tape (some (Int32.ofNat tape.before.length))
  | count elemSize => looking .size tape (OnTape.count elemSize tape)
  | index i elemSize => looking (.ofOption .offset) tape (some (OnTape.index i elemSize tape))
  | remainingCapacity => looking .int tape (some (Int32.ofNat tape.after.length))

/-- A reply about a result that was mapped. -/
@[simp] theorem Reply.of_option_map {α β : Type} (f : β → Reply) (g : α → β) (r : Option α) :
    ofOption f (r.map g) = ofOption (fun a => f (g a)) r := by
  cases r <;> rfl

/-- The octets of an `int` are put together after they are read. -/
theorem moving_pull_int (order : ByteOrder) (cur : Cursor) :
    moving (.ofOption .int) (cursorPullInt order cur) =
      moving (.ofOption fun t => .int (readInt order t)) (cursorPull 4 cur) := by
  rw [moving, cursorPullInt, Option.map_map]
  refine congrArg (fun f => Option.map f _) (funext fun r => ?_)
  exact Prod.ext (Reply.of_option_map _ _ _) rfl

/-- Looking at a cursor changes nothing. -/
theorem refines_looking {α : Type} {cur : Cursor} (h : cur.InBounds) (f : α → Reply)
    {r s : Option α} (hrs : r = s) : Refines cur (looking f cur r) (looking f cur.tape s) := by
  subst hrs
  cases r with
  | none => exact refines_none cur
  | some a => exact refines_same h (f a)

/-- Every call does to the buffer what it does to the tape. -/
theorem call_refines (order : ByteOrder) {cur : Cursor} (h : cur.InBounds) (call : CursorCall) :
    Refines cur (call.run order cur) (call.onTape order cur.tape) := by
  have hfour : (4 : Int32).toInt = (4 : Nat) := rfl
  have hlen := cur.length_before
  have hcapacity := cur.length_after
  cases call with
  | pushByte c => exact (refines_push_byte h c).map _
  | push data => exact (refines_push_len h data.to_int).map _
  | pushSizedStr str => exact (refines_push_len h str.to_int).map _
  | pushInt i => exact (refines_push_len h (by simp [writeInt])).map _
  | pushU16 i => exact (refines_push_len h (by simp)).map _
  | pushStr str => exact (refines_push_len h (Int32.toInt_ofNat_of_lt str.short)).map _
  | pushCStr str => exact (refines_push_c_str h str).map _
  | pullByte => exact (refines_pull_byte h).map _
  | pull n => exact (refines_pull h n.to_int).map _
  | pullInt =>
      have hpull := (refines_pull h hfour).map (Reply.ofOption fun t => .int (readInt order t))
      rw [CursorCall.run, moving_pull_int]
      exact hpull
  | pullCStr => exact (refines_pull_c_str h).map _
  | dropn size n => exact (refines_dropn h size n).map _
  | drop size => exact (refines_drop h size).map _
  | topn m n => exact refines_looking h _ (topn_eq h m n)
  | top n => exact refines_looking h _ (congrArg some (top_eq h n.to_int))
  | topInt =>
      have htop := refines_looking h (Reply.ofOption fun t => .int (readInt order t))
        (congrArg some (top_eq h hfour))
      simpa only [CursorCall.run, CursorCall.onTape, looking, cursorTopInt, Option.map_some,
        Reply.of_option_map] using htop
  | pop n => exact (refines_pop h n).map _
  | reset => exact (refines_reset h).map fun _ => Reply.done
  | wipe => exact (refines_wipe h).map fun _ => Reply.done
  | eof =>
      refine refines_looking h _ (congrArg some ?_)
      rw [cursorEof, Bool.eq_iff_iff, List.isEmpty_iff_length_eq_zero, beq_iff_eq]
      have hupper := h.upper
      omega
  | len => exact refines_looking h _ (congrArg (fun n => some (Int32.ofNat n)) hlen.symm)
  | count elemSize => exact refines_looking h _ (by rw [cursorCount, OnTape.count, hlen]; rfl)
  | index i elemSize =>
      have hindex := refines_looking h (Reply.ofOption .offset)
        (congrArg some (index_eq h i elemSize))
      simpa only [CursorCall.run, CursorCall.onTape, looking, Option.map_some,
        Reply.of_option_map] using hindex
  | remainingCapacity =>
      refine refines_looking h _ (congrArg some ?_)
      rw [cursorRemainingCapacity, hcapacity, ← Nat.cast_sub h.upper]
      exact Int32.ofInt_eq_ofNat

end Gnostr
