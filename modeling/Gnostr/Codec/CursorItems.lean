import Gnostr.Codec.CursorOps
import Gnostr.Wire.Simulation

/-!
# What is written through a cursor is read back

A sequence of octets, numbers, blocks and strings that is pushed onto an empty buffer, and read from
its start by the calls that pull such values (`items_read_back`). The values come back exactly if
they fit, where a block and a number need an octet more than they take.
-/

namespace Gnostr

open Wire

/-- A value that can be pushed and pulled. -/
inductive Item where
  | byte (c : UInt8)
  | int (i : Int32)
  | block (data : Chunk)
  | cStr (str : ShortStr)

namespace Item

/-- The call that writes a value. -/
def push : Item → CursorCall
  | byte c => .pushByte c
  | int i => .pushInt i
  | block data => .push data
  | cStr str => .pushCStr str

/-- The call that reads a value of that kind. -/
def pull : Item → CursorCall
  | byte _ => .pullByte
  | int _ => .pullInt
  | block data => .pull data.length
  | cStr _ => .pullCStr

/-- The answer that delivers a value. -/
def reply : Item → Reply
  | byte c => .octets [c]
  | int i => .int i
  | block data => .octets data.bytes
  | cStr str => .octets str.str.bytes

/-- A value as it stands in the buffer. -/
def bytes (order : ByteOrder) : Item → Bytes
  | byte c => [c]
  | int i => writeInt order i
  | block data => data.bytes
  | cStr str => str.str.bytes ++ [0]

/-- The room a value needs. -/
def need : Item → Nat
  | byte _ => 1
  | int _ => 5
  | block data => data.bytes.length + 1
  | cStr str => str.str.strlen + 1

end Item

/-- Each value finds the room it needs behind those before it. -/
def Fits (order : ByteOrder) : Nat → List Item → Prop
  | _, [] => True
  | room, item :: items => item.need ≤ room ∧ Fits order (room - (item.bytes order).length) items

/-- `int`s are read as they were written. -/
theorem read_write_int (order : ByteOrder) (i : Int32) : readInt order (writeInt order i) = i := by
  have hlt : i.toUInt32.toNat % 256 ^ 4 = i.toUInt32.toNat := Nat.mod_eq_of_lt i.toUInt32.toNat_lt
  rw [readInt, writeInt, order.read_write, hlt, UInt32.ofNat_toNat]
  rfl

/-- An `int` has four bytes. -/
@[simp] theorem length_write_int (order : ByteOrder) (i : Int32) : (writeInt order i).length = 4 :=
  order.length_write 4 _

/-- The answer of a push that needs more than `n` places. -/
theorem moving_room {n k : Nat} (t t' : Tape UInt8) :
    moving .ofBool (some (if n < k then (true, t') else (false, t))) =
      some (if n + 1 ≤ k then (.done, t') else (.failed, t)) := by
  by_cases hroom : n < k
  · rw [if_pos hroom, if_pos (Nat.succ_le_of_lt hroom)]
    rfl
  · have hfull : ¬ n + 1 ≤ k := hroom
    rw [if_neg hroom, if_neg hfull]
    rfl

/-- A push writes the value if there is the room it needs. -/
theorem push_on_tape (order : ByteOrder) (item : Item) (t : Tape UInt8) :
    item.push.onTape order t =
      some (if item.need ≤ t.after.length then (.done, t.write (item.bytes order))
        else (.failed, t)) := by
  cases item with
  | byte c =>
      have hbyte : OnTape.pushByte c t =
          if 0 < t.after.length then (true, t.write [c]) else (false, t) := by
        rw [OnTape.pushByte]
        by_cases hnil : t.after = []
        · rw [if_pos hnil, hnil]
          rfl
        · rw [if_neg hnil, if_pos (List.length_pos_iff.mpr hnil)]
      show moving .ofBool (some (OnTape.pushByte c t)) = _
      rw [hbyte]
      exact moving_room t _
  | int i =>
      show moving .ofBool (some (OnTape.push (writeInt order i) t)) = _
      rw [OnTape.push, length_write_int]
      exact moving_room t _
  | block data => exact moving_room t _
  | cStr str => exact moving_room t _

/-- A value is pulled from where it stands. -/
theorem pull_on_tape (order : ByteOrder) (item : Item) (before rest : Bytes) :
    item.pull.onTape order ⟨before, item.bytes order ++ rest⟩ =
      some (item.reply, ⟨before ++ item.bytes order, rest⟩) := by
  have hblock : ∀ data : Bytes, OnTape.pull data.length ⟨before, data ++ rest⟩ =
      (some data, ⟨before ++ data, rest⟩) := by
    intro data
    rw [OnTape.pull, if_pos (by simp), Tape.forward_append, List.take_left]
  cases item with
  | byte c =>
      show moving _ (some (OnTape.pullByte ⟨before, [c] ++ rest⟩)) = _
      rw [OnTape.pullByte]
      exact congrArg (fun t => some (Reply.octets [c], t)) (Tape.forward_append before [c] rest)
  | int i =>
      have hint := hblock (writeInt order i)
      rw [length_write_int] at hint
      show moving _ (some (OnTape.pull 4 ⟨before, writeInt order i ++ rest⟩)) = _
      rw [hint]
      show some (Reply.int (readInt order (writeInt order i)), _) = _
      rw [read_write_int]
      rfl
  | block data =>
      have hlen : data.length.toNat = data.bytes.length := by
        show data.int.toInt.toNat = _
        rw [data.to_int, Int.toNat_natCast]
      show moving _ (some (OnTape.pull data.length.toNat ⟨before, data.bytes ++ rest⟩)) = _
      rw [hlen, hblock]
      rfl
  | cStr str =>
      have hnul : ∀ c ∈ str.str.bytes, decide (c ≠ 0) = true := fun c hc => by
        simpa using fun hz : c = 0 => str.str.nul_free (hz ▸ hc)
      have htake : (str.str.bytes ++ [0] ++ rest).takeWhile (· ≠ 0) = str.str.bytes := by
        rw [List.append_assoc, List.takeWhile_append_of_pos hnul]
        simp
      have hforward := Tape.forward_append before (str.str.bytes ++ [0]) rest
      rw [List.length_append, List.length_singleton] at hforward
      show moving _ (some (OnTape.pullCStr ⟨before, str.str.bytes ++ [0] ++ rest⟩)) = _
      rw [OnTape.pullCStr]
      simp only [htake, hforward]
      rw [if_pos (by simp)]
      rfl

/-- Values that fit are written one behind the other. -/
theorem push_items_on_tape (order : ByteOrder) {items : List Item} {t : Tape UInt8}
    (h : Fits order t.after.length items) (rest : List CursorCall) :
    run (CursorCall.onTape order) t (items.map Item.push ++ rest) =
      (run (CursorCall.onTape order) (t.write (items.flatMap (Item.bytes order))) rest).map
        fun x => (items.map (fun _ => .done) ++ x.1, x.2) := by
  induction items generalizing t with
  | nil => simp
  | cons item items ih =>
      obtain ⟨hneed, hfits⟩ := h
      have hlen : (t.write (item.bytes order)).after.length =
          t.after.length - (item.bytes order).length := List.length_drop
      rw [List.map_cons, List.cons_append, run, push_on_tape, if_pos hneed, Option.bind_some,
        ih (hlen ▸ hfits), Option.map_map, Tape.write_write, List.flatMap_cons]
      rfl

/-- Values that are all written fit. -/
theorem fits_of_push_items {order : ByteOrder} {items : List Item} {t : Tape UInt8}
    {rest : List CursorCall} {rs : List Reply}
    (h : (run (CursorCall.onTape order) t (items.map Item.push ++ rest)).map Prod.fst =
      some (items.map (fun _ => .done) ++ rs)) : Fits order t.after.length items := by
  induction items generalizing t with
  | nil => exact trivial
  | cons item items ih =>
      rw [List.map_cons, List.cons_append, run, push_on_tape, Option.bind_some, Option.map_map] at h
      by_cases hneed : item.need ≤ t.after.length
      · have hlen : (t.write (item.bytes order)).after.length =
            t.after.length - (item.bytes order).length := List.length_drop
        rw [if_pos hneed] at h
        obtain ⟨x, hx, hreplies⟩ := Option.map_eq_some_iff.mp h
        have htail : x.1 = items.map (fun _ => .done) ++ rs := List.tail_eq_of_cons_eq hreplies
        refine ⟨hneed, hlen ▸ ih ?_⟩
        rw [hx, Option.map_some, htail]
      · -- the first value that does not fit is refused
        rw [if_neg hneed] at h
        obtain ⟨x, -, hreplies⟩ := Option.map_eq_some_iff.mp h
        have hfirst : Reply.failed = .done := List.head_eq_of_cons_eq hreplies
        cases hfirst

/-- Values are read one behind the other. -/
theorem pull_items_on_tape (order : ByteOrder) (items : List Item) (before rest : Bytes) :
    run (CursorCall.onTape order) ⟨before, items.flatMap (Item.bytes order) ++ rest⟩
        (items.map Item.pull) =
      some (items.map Item.reply, ⟨before ++ items.flatMap (Item.bytes order), rest⟩) := by
  induction items generalizing before with
  | nil => simp [run]
  | cons item items ih =>
      rw [List.flatMap_cons, List.append_assoc, List.map_cons, run, pull_on_tape, Option.bind_some,
        ih, Option.map_some, List.append_assoc]
      rfl

/-- Values pushed onto an empty buffer are delivered again, in order, by the calls that pull such
values from its start: exactly if they fit. -/
theorem items_read_back (order : ByteOrder) (mem : Mem) (start room : Nat) (items : List Item) :
    (run (CursorCall.run order) (makeCursor mem start (start + room))
        (items.map Item.push ++ .reset :: items.map Item.pull)).map Prod.fst =
      some (items.map (fun _ => .done) ++ .done :: items.map Item.reply) ↔
    Fits order room items := by
  have hin : (makeCursor mem start (start + room)).InBounds := ⟨le_rfl, Nat.le_add_right _ _⟩
  have hbefore : (makeCursor mem start (start + room)).tape.before = [] :=
    List.eq_nil_of_length_eq_zero (by simp [makeCursor])
  have hroom : (makeCursor mem start (start + room)).tape.after.length = room := by
    simp [makeCursor]
  have hkeep : ∀ (cur : Cursor) (call : CursorCall) (x : Reply × Cursor), cur.InBounds →
      call.run order cur = some x → x.2.InBounds := fun cur call x h hx =>
    ((call_refines order h call).stays x hx).bounds
  have hrefines := run_refines hkeep (fun cur call h => (call_refines order h call).tape) hin
    (items.map Item.push ++ .reset :: items.map Item.pull)
  have hreplies := congrArg (Option.map Prod.fst) hrefines
  rw [Option.map_map] at hreplies
  generalize (makeCursor mem start (start + room)).tape = t at hreplies hbefore hroom
  have hfst : (run (CursorCall.run order) (makeCursor mem start (start + room))
      (items.map Item.push ++ .reset :: items.map Item.pull)).map Prod.fst = _ := hreplies
  rw [hfst]
  subst hroom
  refine ⟨fits_of_push_items, fun hfits => ?_⟩
  have hrewind : (t.write (items.flatMap (Item.bytes order))).rewind =
      ⟨[], items.flatMap (Item.bytes order) ++
        t.after.drop (items.flatMap (Item.bytes order)).length⟩ := by
    simp [Tape.rewind, Tape.fresh, Tape.contents, Tape.write, hbefore]
  rw [push_items_on_tape order hfits, run, CursorCall.onTape, Option.bind_some, hrewind,
    pull_items_on_tape]
  rfl

end Gnostr
