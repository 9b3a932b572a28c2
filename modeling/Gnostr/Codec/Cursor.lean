import Gnostr.Wire.Bytes

/-!
# Cursors over a byte buffer

The writing half of `include/cursor.h`. A cursor is three addresses into a memory: the
start of the buffer, the position of the next write, and the end. A push returns whether
it succeeded together with the cursor it leaves behind, which after a failure inside a
longer push may already hold part of the text.

`cursor_push_byte` tests `p + 1 > end` and `cursor_push` tests `p + len >= end`, so a block
push needs one byte of room more than a byte push. `Emits` describes both at once and is
closed under sequencing, so the longer pushes of the event serialiser are specified by the
text they write. `pushes_agree_iff` says for which strings the difference can be seen.
-/

namespace Gnostr

open Wire

/-- A memory block, by offset. -/
abbrev Mem := Nat → UInt8

/-- The memory after storing a text at an offset. -/
def Mem.store (mem : Mem) (at_ : Nat) (t : Bytes) : Mem :=
  fun i => if at_ ≤ i then (t[i - at_]?).getD (mem i) else mem i

/-- The octets from one offset up to another. -/
def Mem.slice (mem : Mem) (start stop : Nat) : Bytes :=
  (List.range (stop - start)).map fun i => mem (start + i)

/-- `struct cursor`, with the memory it points into. -/
structure Cursor where
  start : Nat
  p : Nat
  stop : Nat
  mem : Mem

/-- `make_cursor`. -/
def makeCursor (mem : Mem) (start stop : Nat) : Cursor :=
  ⟨start, start, stop, mem⟩

/-- `reset_cursor`. -/
def resetCursor (cur : Cursor) : Cursor :=
  { cur with p := cur.start }

/-- `cursor_len`. -/
def cursorLen (cur : Cursor) : Nat :=
  cur.p - cur.start

/-- The text between the start of the buffer and the write position. -/
def Cursor.text (cur : Cursor) : Bytes :=
  cur.mem.slice cur.start cur.p

/-- Store a text at the write position and advance past it. -/
def Cursor.write (cur : Cursor) (t : Bytes) : Cursor :=
  { cur with p := cur.p + t.length, mem := cur.mem.store cur.p t }

/-- `cur->p += n`. -/
def Cursor.advance (cur : Cursor) (n : Nat) : Cursor :=
  { cur with p := cur.p + n }

/-- An operation that writes through a cursor and reports success. -/
abbrev Push := Cursor → Bool × Cursor

/-- `cursor_push_byte`. -/
def cursorPushByte (c : UInt8) : Push := fun cur =>
  if cur.p + 1 > cur.stop then (false, cur) else (true, cur.write [c])

/-- `cursor_push`. -/
def cursorPush (data : Bytes) : Push := fun cur =>
  if cur.p + data.length ≥ cur.stop then (false, cur) else (true, cur.write data)

/-- `cursor_push_str`. -/
def cursorPushStr (str : Bytes) : Push :=
  cursorPush str

/-- `a && b && ...`: run pushes in order and stop at the first that fails. -/
def Push.all : List Push → Push
  | [], cur => (true, cur)
  | m :: ms, cur =>
      match m cur with
      | (true, cur) => Push.all ms cur
      | (false, cur) => (false, cur)

/-! ## Stores -/

/-- Storing nothing changes nothing. -/
theorem Mem.store_nil (mem : Mem) (a : Nat) : mem.store a [] = mem := by
  funext i
  simp [store]

/-- Storing one text behind another is storing both. -/
theorem Mem.store_append (mem : Mem) (a : Nat) (s t : Bytes) :
    (mem.store a s).store (a + s.length) t = mem.store a (s ++ t) := by
  funext i
  by_cases ha : a ≤ i
  · by_cases hs : a + s.length ≤ i
    · have hi : s.length ≤ i - a := by omega
      have hsub : i - (a + s.length) = i - a - s.length := by omega
      simp [store, ha, hs, hsub, List.getElem?_append_right hi, List.getElem?_eq_none hi]
    · have hi : i - a < s.length := by omega
      simp [store, ha, hs, List.getElem?_append_left hi]
  · have hs : ¬ a + s.length ≤ i := by omega
    simp [store, ha, hs]

/-- Nothing outside the stored text changes. -/
theorem Mem.store_outside (mem : Mem) (a : Nat) (t : Bytes) {i : Nat}
    (h : i < a ∨ a + t.length ≤ i) : mem.store a t i = mem i := by
  unfold store
  rcases h with h | h
  · rw [if_neg (by omega)]
  · rw [if_pos (by omega), List.getElem?_eq_none (by omega), Option.getD_none]

/-- Reading back what was stored. -/
theorem Mem.slice_store (mem : Mem) (a : Nat) (t : Bytes) :
    (mem.store a t).slice a (a + t.length) = t := by
  refine List.ext_getElem (by simp [slice]) fun i hi ht => ?_
  simp [slice, store, List.getElem?_eq_getElem ht]

/-- A slice in two parts. -/
theorem Mem.slice_append (mem : Mem) {a b c : Nat} (hab : a ≤ b) (hbc : b ≤ c) :
    mem.slice a c = mem.slice a b ++ mem.slice b c := by
  have hlen : c - a = (b - a) + (c - b) := by omega
  have hsum : ∀ i, a + (b - a + i) = b + i := fun i => by omega
  rw [slice, hlen, List.range_add, List.map_append, List.map_map]
  simp [slice, Function.comp_def, hsum]

/-- A store behind a slice does not change it. -/
theorem Mem.slice_store_of_le (mem : Mem) {a b p : Nat} (h : b ≤ p) (t : Bytes) :
    (mem.store p t).slice a b = mem.slice a b := by
  refine List.map_congr_left fun i hi => mem.store_outside p t (.inl ?_)
  have hi := List.mem_range.mp hi
  omega

/-- Storing a text and something behind it extends the slice in front by the text. -/
theorem Mem.slice_store_append (mem : Mem) {a p : Nat} (h : a ≤ p) (t rest : Bytes) :
    (mem.store p (t ++ rest)).slice a (p + t.length) = mem.slice a p ++ t := by
  rw [← store_append, slice_store_of_le _ (Nat.le_refl _), slice_append _ h (Nat.le_add_right _ _),
    slice_store_of_le _ (Nat.le_refl _), slice_store]

/-- Writing nothing changes nothing. -/
@[simp] theorem Cursor.write_nil (cur : Cursor) : cur.write [] = cur := by
  simp [write, Mem.store_nil]

/-- Writing twice is writing both. -/
@[simp] theorem Cursor.write_write (cur : Cursor) (s t : Bytes) :
    (cur.write s).write t = cur.write (s ++ t) := by
  simp [write, Mem.store_append, Nat.add_assoc]

/-- Writing moves the position by what was written. -/
@[simp] theorem Cursor.write_p (cur : Cursor) (t : Bytes) :
    (cur.write t).p = cur.p + t.length := rfl

/-- The end stays where it is. -/
@[simp] theorem Cursor.write_stop (cur : Cursor) (t : Bytes) : (cur.write t).stop = cur.stop := rfl

/-- What a fresh cursor holds after writing. -/
theorem Cursor.text_write (mem : Mem) (start stop : Nat) (t : Bytes) :
    ((makeCursor mem start stop).write t).text = t :=
  Mem.slice_store mem start t

/-- `cur'` stands behind the text `t` that was written at the position of `cur`. What stands in
the buffer behind `cur'` is left open. -/
structure Appends (cur : Cursor) (t : Bytes) (cur' : Cursor) : Prop where
  start : cur'.start = cur.start
  stop : cur'.stop = cur.stop
  p : cur'.p = cur.p + t.length
  text : cur'.text = cur.text ++ t

/-- Storing a text at the position of a cursor and moving it behind the text. -/
theorem appends_store {cur : Cursor} (h : cur.start ≤ cur.p) (t rest : Bytes) :
    Appends cur t ({ cur with mem := cur.mem.store cur.p (t ++ rest) }.advance t.length) :=
  ⟨rfl, rfl, rfl, Mem.slice_store_append cur.mem h t rest⟩

/-- Writing appends. -/
theorem appends_write {cur : Cursor} (h : cur.start ≤ cur.p) (t : Bytes) :
    Appends cur t (cur.write t) := by
  have hstore := appends_store h t []
  rwa [List.append_nil] at hstore

/-- Appending one text and then another is appending both. -/
theorem Appends.trans {cur cur' cur'' : Cursor} {s t : Bytes} (h : Appends cur s cur')
    (h' : Appends cur' t cur'') : Appends cur (s ++ t) cur'' :=
  ⟨h'.start.trans h.start, h'.stop.trans h.stop, by rw [h'.p, h.p, List.length_append]; omega,
    by rw [h'.text, h.text, List.append_assoc]⟩

/-! ## What a push writes -/

/-- `m` writes the text `t`: it succeeds when there is room for the text and one byte more,
and in any case what it leaves in the buffer is a prefix of the text that fits, all of it
when it succeeds. -/
structure Emits (m : Push) (t : Bytes) : Prop where
  fits : ∀ cur : Cursor, cur.p + t.length < cur.stop → m cur = (true, cur.write t)
  bounded : ∀ cur : Cursor, cur.p ≤ cur.stop → ∃ done, done <+: t ∧
    cur.p + done.length ≤ cur.stop ∧ (m cur).2 = cur.write done ∧ ((m cur).1 = true → done = t)

/-- A push that writes its text when there is room for the text and one byte more, and may change
what stands behind it. -/
def Writes (m : Push) (t : Bytes) : Prop :=
  ∀ cur : Cursor, cur.start ≤ cur.p → cur.p + t.length < cur.stop →
    ∃ cur', m cur = (true, cur') ∧ Appends cur t cur'

/-- What is emitted is written where there is room. -/
theorem Emits.writes {m : Push} {t : Bytes} (h : Emits m t) : Writes m t := fun cur hstart hroom =>
  ⟨cur.write t, h.fits cur hroom, appends_write hstart t⟩

/-- Bytes pushed one by one fit up to the last byte of the buffer. -/
theorem push_bytes_eq (s : Bytes) (cur : Cursor) (h : cur.p + s.length ≤ cur.stop) :
    Push.all (s.map cursorPushByte) cur = (true, cur.write s) := by
  induction s generalizing cur with
  | nil => simp [Push.all]
  | cons c s ih =>
      rw [List.length_cons] at h
      have hroom : ¬ cur.p + 1 > cur.stop := by omega
      have hrest := ih (cur.write [c]) (by simp; omega)
      simp [Push.all, cursorPushByte, hroom, hrest]

/-- A byte is emitted. -/
theorem emits_push_byte (c : UInt8) : Emits (cursorPushByte c) [c] where
  fits cur h := by
    have hroom : ¬ cur.p + 1 > cur.stop := by simp at h; omega
    simp [cursorPushByte, hroom]
  bounded cur h := by
    by_cases hfull : cur.p + 1 > cur.stop
    · exact ⟨[], List.nil_prefix, by simpa using h, by simp [cursorPushByte, hfull],
        by simp [cursorPushByte, hfull]⟩
    · refine ⟨[c], List.prefix_rfl, by simp; omega, ?_, fun _ => rfl⟩
      simp [cursorPushByte, hfull]

/-- A string is emitted. -/
theorem emits_push_str (t : Bytes) : Emits (cursorPushStr t) t where
  fits cur h := by
    have hroom : ¬ cur.p + t.length ≥ cur.stop := by omega
    simp [cursorPushStr, cursorPush, hroom]
  bounded cur h := by
    by_cases hfull : cur.p + t.length ≥ cur.stop
    · exact ⟨[], List.nil_prefix, by simpa using h, by simp [cursorPushStr, cursorPush, hfull],
        by simp [cursorPushStr, cursorPush, hfull]⟩
    · refine ⟨t, List.prefix_rfl, by omega, ?_, fun _ => rfl⟩
      simp [cursorPushStr, cursorPush, hfull]

/-- No calls emit nothing. -/
theorem emits_nil : Emits (Push.all []) [] where
  fits cur _ := by simp [Push.all]
  bounded cur h := ⟨[], List.nil_prefix, by simpa using h, by simp [Push.all], fun _ => rfl⟩

/-- A push followed by others writes their texts one after the other. -/
theorem Emits.cons {m : Push} {ms : List Push} {t ts : Bytes} (hm : Emits m t)
    (hms : Emits (Push.all ms) ts) : Emits (Push.all (m :: ms)) (t ++ ts) where
  fits cur h := by
    rw [List.length_append] at h
    have hfirst := hm.fits cur (by omega)
    have hrest := hms.fits (cur.write t) (by simp; omega)
    simp [Push.all, hfirst, hrest]
  bounded cur h := by
    obtain ⟨done, hprefix, hroom, hstate, hok⟩ := hm.bounded cur h
    rcases hrun : m cur with ⟨ok, cur'⟩
    simp only [hrun] at hstate hok
    cases ok with
    | false =>
        -- the rest is not tried
        exact ⟨done, hprefix.trans (List.prefix_append t ts), hroom,
          by simp [Push.all, hrun, hstate], by simp [Push.all, hrun]⟩
    | true =>
        obtain rfl := hok rfl
        subst hstate
        obtain ⟨more, hprefix', hroom', hstate', hok'⟩ := hms.bounded (cur.write done) hroom
        refine ⟨done ++ more, (List.prefix_append_right_inj done).mpr hprefix', ?_, ?_, ?_⟩
        · simp only [Cursor.write_p, Cursor.write_stop] at hroom'
          rw [List.length_append]
          omega
        · simpa [Push.all, hrun] using hstate'
        · intro hsuccess
          simp only [Push.all, hrun] at hsuccess
          rw [hok' hsuccess]

/-- One push alone. -/
theorem Emits.single {m : Push} {t : Bytes} (h : Emits m t) : Emits (Push.all [m]) t := by
  simpa using h.cons emits_nil

/-- A push that succeeds has written its whole text within the buffer. -/
theorem Emits.of_success {m : Push} {t : Bytes} (h : Emits m t) {cur : Cursor}
    (hroom : cur.p ≤ cur.stop) (hok : (m cur).1 = true) :
    (m cur).2 = cur.write t ∧ cur.p + t.length ≤ cur.stop := by
  obtain ⟨done, -, hfit, hstate, hall⟩ := h.bounded cur hroom
  obtain rfl := hall hok
  exact ⟨hstate, hfit⟩

/-- A list of pushes and one more behind it. -/
theorem push_all_concat (ms : List Push) (m : Push) :
    Push.all (ms ++ [m]) = Push.all [Push.all ms, m] := by
  funext cur
  induction ms generalizing cur with
  | nil => rfl
  | cons first ms ih =>
      rw [List.cons_append]
      rcases hfirst : first cur with ⟨ok, cur'⟩
      cases ok with
      | true =>
          have hrest := ih cur'
          simp only [Push.all] at hrest ⊢
          simp only [hfirst, hrest]
      | false => simp only [Push.all, hfirst]

/-- Two runs of pushes, one behind the other. -/
theorem push_all_append (ms ns : List Push) (cur : Cursor) :
    Push.all (ms ++ ns) cur =
      if (Push.all ms cur).1 then Push.all ns (Push.all ms cur).2 else Push.all ms cur := by
  induction ms generalizing cur with
  | nil => rfl
  | cons first ms ih =>
      rw [List.cons_append]
      rcases hfirst : first cur with ⟨ok, cur'⟩
      cases ok with
      | true => simpa only [Push.all, hfirst] using ih cur'
      | false => simp [Push.all, hfirst]

/-- A push behind the others writes its text behind theirs. -/
theorem Emits.concat {ms : List Push} {m : Push} {s t : Bytes} (hms : Emits (Push.all ms) s)
    (hm : Emits m t) : Emits (Push.all (ms ++ [m])) (s ++ t) := by
  rw [push_all_concat]
  exact hms.cons hm.single

/-- Where the last push is a block, success leaves at least one byte of room. -/
theorem Emits.room_of_concat {ms : List Push} {s t : Bytes} (h : Emits (Push.all ms) s)
    {cur : Cursor} (hroom : cur.p ≤ cur.stop)
    (hok : (Push.all (ms ++ [cursorPushStr t]) cur).1 = true) :
    cur.p + (s ++ t).length < cur.stop := by
  by_contra hfull
  rw [push_all_concat] at hok
  rcases hfront : Push.all ms cur with ⟨ok, cur'⟩
  cases ok with
  | false => simp [Push.all, hfront] at hok
  | true =>
      obtain ⟨hstate, -⟩ := h.of_success hroom (congrArg Prod.fst hfront)
      rw [hfront] at hstate
      obtain rfl : cur' = cur.write s := hstate
      have hno : (cur.write s).p + t.length ≥ (cur.write s).stop := by
        rw [List.length_append] at hfull
        rw [Cursor.write_p, Cursor.write_stop]
        omega
      simp only [Push.all, hfront, cursorPushStr, cursorPush, if_pos hno] at hok
      cases hok

/-! ## Blocks and bytes

`cursor_push` takes its length as an `int`, and `cursor_remaining_capacity` returns one. -/

/-- `cursor_push` with the length it is given. A negative length passes the test, and `memcpy` is
then asked for more octets than any buffer has: nothing. -/
def cursorPushLen (data : Bytes) (len : Int32) (cur : Cursor) : Option (Bool × Cursor) :=
  if cur.p + len.toInt ≥ cur.stop then some (false, cur)
  else if len.toInt < 0 then none
  else some (true, cur.write (data.take len.toInt.toNat))

/-- `cursor_push_str` with the conversion of the length. -/
def cursorPushStrLen (str : CStr) (cur : Cursor) : Option (Bool × Cursor) :=
  cursorPushLen str.bytes (Int32.ofNat str.strlen) cur

/-- `cursor_remaining_capacity`. -/
def cursorRemainingCapacity (cur : Cursor) : Int32 :=
  Int32.ofInt (cur.stop - cur.p)

/-- The bytes of a string, pushed one by one. -/
def pushBytes (str : CStr) : Push :=
  Push.all (str.bytes.map cursorPushByte)

/-- A string is pushed as a block exactly if its bytes can be pushed one by one, that is if they
are not more than the remaining capacity, and then with the same result; a block that is not pushed
changes nothing. -/
structure PushesAgree (cur : Cursor) (str : CStr) : Prop where
  capacity : (pushBytes str cur).1 = true ↔
    (str.strlen : Int) ≤ (cursorRemainingCapacity cur).toInt
  block : ∃ ok cur', cursorPushStrLen str cur = some (ok, cur') ∧
    (ok = true ↔ (pushBytes str cur).1 = true) ∧ (ok = true → cur' = (pushBytes str cur).2) ∧
    (ok = false → cur' = cur)

/-- A length below `2 ^ 31` is converted to itself. -/
theorem cursor_push_str_len {str : CStr} (h : str.strlen < 2 ^ 31) (cur : Cursor) :
    cursorPushStrLen str cur = some (cursorPushStr str.bytes cur) := by
  have hlen : (Int32.ofNat str.strlen).toInt = str.bytes.length := Int32.toInt_ofNat_of_lt h
  rw [cursorPushStrLen, cursorPushLen, cursorPushStr, cursorPush, hlen]
  by_cases hfull : cur.p + str.bytes.length ≥ cur.stop
  · rw [if_pos hfull, if_pos (by exact_mod_cast hfull)]
  · rw [if_neg hfull, if_neg (by exact_mod_cast hfull), if_neg (by omega)]
    simp

/-- A length that is not negative pushes as many bytes. -/
theorem cursor_push_str_counted {str : CStr} (h : 0 ≤ str.intLen.toInt) (cur : Cursor) :
    cursorPushStrLen str cur = some (cursorPushStr str.counted cur) := by
  have hlen := str.length_counted
  have hconv : (Int32.ofNat str.strlen).toInt = str.counted.length := by
    rw [hlen, Int.toNat_of_nonneg h]
    rfl
  rw [cursorPushStrLen, cursorPushLen, cursorPushStr, cursorPush, hconv]
  by_cases hfull : cur.p + str.counted.length ≥ cur.stop
  · rw [if_pos hfull, if_pos (by exact_mod_cast hfull)]
  · rw [if_neg hfull, if_neg (by exact_mod_cast hfull), if_neg (by omega), Int.toNat_natCast, hlen]
    rfl

/-- A negative length passes the test for room and reaches `memcpy`. -/
theorem cursor_push_str_negative {str : CStr} (h : str.intLen.toInt < 0) {cur : Cursor}
    (hcur : cur.p ≤ cur.stop) : cursorPushStrLen str cur = none := by
  have hconv : (Int32.ofNat str.strlen).toInt < 0 := h
  rw [cursorPushStrLen, cursorPushLen, if_neg (by omega), if_pos hconv]

/-- Bytes pushed one by one need as much room as there are of them. -/
theorem push_bytes_iff (str : CStr) {cur : Cursor} (h : cur.p ≤ cur.stop) :
    (pushBytes str cur).1 = true ↔ cur.p + str.strlen ≤ cur.stop := by
  have hemits : ∀ s : Bytes, Emits (Push.all (s.map cursorPushByte)) s := by
    intro s
    induction s with
    | nil => exact emits_nil
    | cons c s ih => exact (emits_push_byte c).cons ih
  constructor
  · intro hok
    exact ((hemits str.bytes).of_success h hok).2
  · intro hroom
    rw [pushBytes, push_bytes_eq str.bytes cur hroom]

/-- The capacity as an `int` is not above the capacity, and is the capacity if it fits. -/
theorem capacity_to_int (cur : Cursor) (h : cur.p ≤ cur.stop) :
    (cursorRemainingCapacity cur).toInt ≤ cur.stop - cur.p ∧
      (cursorRemainingCapacity cur).toInt < 2 ^ 31 ∧
      (cur.stop - cur.p < 2 ^ 31 → (cursorRemainingCapacity cur).toInt = cur.stop - cur.p) := by
  rw [cursorRemainingCapacity, Int32.toInt_ofInt, Int.bmod_def]
  simp only [Int32.size]
  split <;> omega

section

variable {cur : Cursor} {str : CStr} (hstop : cur.p ≤ cur.stop)

include hstop

/-- With a length that fits an `int`, a block is pushed exactly if one byte of room is left. -/
theorem pushes_agree_short (hlen : str.strlen < 2 ^ 31) :
    PushesAgree cur str ↔ str.strlen ≠ cur.stop - cur.p ∧ (str.strlen < cur.stop - cur.p →
      (str.strlen : Int) ≤ (cursorRemainingCapacity cur).toInt) := by
  obtain ⟨hle, -, hfits⟩ := capacity_to_int cur hstop
  have hbytes := push_bytes_iff str hstop
  have hrefused : cur.stop - cur.p ≤ str.strlen → cursorPushStrLen str cur = some (false, cur) := by
    intro hfull
    have hfull : cur.p + str.bytes.length ≥ cur.stop := Nat.sub_le_iff_le_add'.mp hfull
    rw [cursor_push_str_len hlen, cursorPushStr, cursorPush, if_pos hfull]
  constructor
  · rintro ⟨hcapacity, ok, cur', hpush, hok, -⟩
    refine ⟨fun hexact => ?_, fun hlt => hcapacity.mp (hbytes.mpr (by omega))⟩
    -- the block that fills the buffer is refused, its bytes are not
    rw [hrefused hexact.ge] at hpush
    obtain ⟨rfl, -⟩ := Prod.mk.inj (Option.some.inj hpush)
    exact absurd (hok.mpr (hbytes.mpr (by omega))) (by decide)
  · rintro ⟨hne, hcapacity⟩
    by_cases hroom : str.strlen < cur.stop - cur.p
    · have hfits : cur.p + str.strlen ≤ cur.stop := by omega
      have hpush : cursorPushStr str.bytes cur = (true, cur.write str.bytes) :=
        (emits_push_str str.bytes).fits cur (by show cur.p + str.strlen < cur.stop; omega)
      have hall : pushBytes str cur = (true, cur.write str.bytes) :=
        push_bytes_eq str.bytes cur hfits
      refine ⟨iff_of_true (hbytes.mpr hfits) (hcapacity hroom), true, cur.write str.bytes, ?_, ?_⟩
      · rw [cursor_push_str_len hlen, hpush]
      · rw [hall]
        exact ⟨Iff.rfl, fun _ => rfl, fun h => absurd h (by decide)⟩
    · have hno : ¬ (pushBytes str cur).1 = true := by
        rw [hbytes]
        omega
      exact ⟨iff_of_false hno (by omega), false, cur, hrefused (Nat.not_lt.mp hroom),
        iff_of_false (by decide) hno, fun h => absurd h (by decide), fun _ => rfl⟩

/-- A length that does not fit an `int` becomes another one, which has to be refused as well. -/
theorem pushes_agree_long (hlen : ¬ str.strlen < 2 ^ 31) :
    PushesAgree cur str ↔ (cur.stop : Int) - cur.p ≤ (Int32.ofNat str.strlen).toInt := by
  have hlt : (Int32.ofNat str.strlen).toInt < 2 ^ 31 := Int32.toInt_lt _
  have hbytes := push_bytes_iff str hstop
  obtain ⟨-, hcap, -⟩ := capacity_to_int cur hstop
  constructor
  · rintro ⟨-, ok, cur', hpush, hok, hsame, -⟩
    by_contra hroom
    rw [cursorPushStrLen, cursorPushLen, if_neg (by omega)] at hpush
    split at hpush
    · cases hpush
    · obtain ⟨rfl, rfl⟩ := Prod.mk.inj (Option.some.inj hpush)
      have hfits := hbytes.mp (hok.mp rfl)
      have hwrite := hsame rfl
      rw [pushBytes, push_bytes_eq str.bytes cur hfits] at hwrite
      -- fewer octets than the string has were copied
      have hp := congrArg Cursor.p hwrite
      rw [Cursor.write_p, Cursor.write_p, List.length_take] at hp
      have hlength : str.bytes.length = str.strlen := rfl
      omega
  · intro hroom
    have hno : ¬ (pushBytes str cur).1 = true := by
      rw [hbytes]
      omega
    refine ⟨iff_of_false hno (by omega), false, cur, ?_, iff_of_false (by decide) hno,
      fun h => absurd h (by decide), fun _ => rfl⟩
    rw [cursorPushStrLen, cursorPushLen, if_pos (by omega)]

end

/-- A string is pushed as its bytes are exactly if its length is not the remaining capacity, as long
as both fit an `int`: a block needs one byte of room more. -/
theorem pushes_agree_iff (cur : Cursor) (str : CStr)
    (hcur : cur.start ≤ cur.p ∧ cur.p ≤ cur.stop) :
    PushesAgree cur str ↔
      if str.strlen < 2 ^ 31 then
        str.strlen ≠ cur.stop - cur.p ∧ (str.strlen < cur.stop - cur.p →
          (str.strlen : Int) ≤ (cursorRemainingCapacity cur).toInt)
      else (cur.stop : Int) - cur.p ≤ (Int32.ofNat str.strlen).toInt := by
  split
  · next hlen => exact pushes_agree_short hcur.2 hlen
  · next hlen => exact pushes_agree_long hcur.2 hlen

/-- A string with room to spare. -/
theorem pushes_agree_iff_spare :
    PushesAgree (makeCursor (fun _ => 0) 0 4) ⟨ascii "abc", by decide⟩ :=
  (pushes_agree_iff (makeCursor (fun _ => 0) 0 4) ⟨ascii "abc", by decide⟩ (by decide)).mpr
    (by decide)

/-- A string that fills the buffer can be pushed byte by byte only. -/
theorem push_str_refuses_exact_fit :
    ¬ ∀ (cur : Cursor) (str : CStr), cur.start ≤ cur.p ∧ cur.p ≤ cur.stop →
      PushesAgree cur str := by
  intro h
  have hagree := h (makeCursor (fun _ => 0) 0 3) ⟨ascii "abc", by decide⟩ (by decide)
  rw [pushes_agree_short (by decide) (by decide)] at hagree
  exact hagree.1 rfl

end Gnostr
