import Gnostr.Codec.CursorOps
import Gnostr.Wire.Simulation

/-!
# Cursors that share a memory

`cursor_malloc`, `cursor_alloc` and `cursor_slice` cut cursors out of the buffer of another one, and
`pull_data_into_cursor` copies from one of them to another. All of them share one memory, addressed
by numbers in the lower half of the address space. `arena_run` says that this cannot be observed: in
any order of calls the answers are those of separate tapes, each of them zero at first, and no octet
outside the buffer changes.
-/

namespace Gnostr

open Wire

/-! ## The source -/

/-- `cursor_malloc`, an address. The sum is one of pointers. -/
def cursorMalloc (size : UInt64) (mem : Cursor) : Option Nat × Cursor :=
  let p := (mem.p + size.toNat) % 2 ^ 64
  if p > mem.stop then (none, mem) else (some mem.p, { mem with p := p })

/-- `cursor_alloc`. -/
def cursorAlloc (size : UInt64) (mem : Cursor) : Option Nat × Cursor :=
  match cursorMalloc size mem with
  | (none, mem) => (none, mem)
  | (some ret, mem) =>
      (some ret, { mem with mem := mem.mem.store ret (List.replicate size.toNat 0) })

/-- A cursor without the memory it points into. -/
structure Window where
  start : Nat
  p : Nat
  stop : Nat
  deriving DecidableEq

/-- The cursor in a memory. -/
def Window.on (w : Window) (mem : Mem) : Cursor :=
  ⟨w.start, w.p, w.stop, mem⟩

/-- The addresses of a cursor. -/
def Cursor.window (cur : Cursor) : Window :=
  ⟨cur.start, cur.p, cur.stop⟩

/-- `cursor_slice`, with the cursor it makes. -/
def cursorSlice (size : UInt64) (mem : Cursor) : Option Window × Cursor :=
  match cursorAlloc size mem with
  | (none, mem) => (none, mem)
  | (some p, mem) => (some (makeCursor mem.mem p mem.p).window, mem)

/-- `pull_data_into_cursor`, with the address it leaves in `data`. -/
def pullDataIntoCursor (len : Int32) (cursor dest : Window) (mem : Mem) :
    Option (Option Nat × Window × Window × Mem) :=
  if dest.p + len.toInt > dest.stop then some (none, cursor, dest, mem)
  else
    match cursorPull len (cursor.on mem) with
    | none => none
    | some (none, cur) => some (none, cur.window, dest, mem)
    | some (some data, cur) =>
        some (some dest.p, cur.window, { dest with p := dest.p + len.toInt.toNat },
          mem.store dest.p data)

/-! ## Calls on the cursors of an arena -/

/-- A memory, the cursor of the buffer the others are cut from, and these. -/
structure Arena where
  mem : Mem
  pool : Window
  slices : List Window

/-- The size of an object. -/
structure Size where
  toUInt64 : UInt64
  small : toUInt64.toNat < 2 ^ 63

/-- A call on the cursors of an arena, which are named in the order they were cut. -/
inductive ArenaCall where
  | slice (size : Size)
  | on (i : Nat) (call : CursorCall)
  | pullDataInto (i j : Nat) (n : Length)

/-- The octets that were copied to an address. -/
def copied (mem : Mem) (n : Nat) : Option Nat → Reply :=
  Reply.ofOption fun a => .octets (mem.slice a (a + n))

/-- The arena after a call on one of its cursors. -/
def Arena.put (s : Arena) (i : Nat) (cur : Cursor) : Arena :=
  { s with mem := cur.mem, slices := s.slices.set i cur.window }

/-- A call on an arena: nothing if it has no value, names no cursor, or copies from a cursor into
itself. -/
def Arena.step (order : ByteOrder) (s : Arena) : ArenaCall → Option (Reply × Arena)
  | .slice size =>
      match cursorSlice size.toUInt64 (s.pool.on s.mem) with
      | (none, cur) => some (.failed, { s with mem := cur.mem, pool := cur.window })
      | (some w, cur) => some (.done, ⟨cur.mem, cur.window, s.slices ++ [w]⟩)
  | .on i call =>
      s.slices[i]?.bind fun w =>
        (call.run order (w.on s.mem)).map fun x => (x.1, s.put i x.2)
  | .pullDataInto i j n =>
      if i = j then none
      else
        s.slices[i]?.bind fun w =>
          s.slices[j]?.bind fun w' =>
            (pullDataIntoCursor n.int w w' s.mem).map fun (a, w, w', mem) =>
              (copied mem n.toNat a, (s.put i (w.on mem)).put j (w'.on mem))

/-- Tapes of their own, and the room for further ones. -/
structure Tapes where
  room : Nat
  tapes : List (Tape UInt8)

/-- Tapes after a call on one of them. -/
def Tapes.put (s : Tapes) (i : Nat) (t : Tape UInt8) : Tapes :=
  { s with tapes := s.tapes.set i t }

/-- A call on tapes. -/
def Tapes.step (order : ByteOrder) (s : Tapes) : ArenaCall → Option (Reply × Tapes)
  | .slice size =>
      let n := size.toUInt64.toNat
      if n ≤ s.room then
        some (.done, ⟨s.room - n, s.tapes ++ [.fresh (List.replicate n 0)]⟩)
      else some (.failed, s)
  | .on i call =>
      s.tapes[i]?.bind fun t => (call.onTape order t).map fun x => (x.1, s.put i x.2)
  | .pullDataInto i j n =>
      if i = j then none
      else
        s.tapes[i]?.bind fun t =>
          s.tapes[j]?.bind fun t' =>
            let data := t.after.take n.toNat
            some <|
              if n.toNat ≤ t.after.length ∧ n.toNat ≤ t'.after.length then
                (.octets data, (s.put i (t.forward n.toNat)).put j (t'.write data))
              else (.failed, s)

/-! ## One memory and many tapes -/

/-- A buffer in the lower half of the address space. -/
structure Span where
  start : Nat
  stop : Nat
  ordered : start ≤ stop
  low : stop < 2 ^ 63

/-- The arena of a buffer before any call. -/
def Span.arena (b : Span) (mem : Mem) : Arena :=
  ⟨mem, (makeCursor mem b.start b.stop).window, []⟩

/-- What the cursors of an arena are tapes of. -/
def Arena.tapes (s : Arena) : Tapes :=
  ⟨s.pool.stop - s.pool.p, s.slices.map fun w => (w.on s.mem).tape⟩

/-- The addresses between which a cursor moves. -/
def Window.extent (w : Window) : Nat × Nat :=
  (w.start, w.stop)

/-- The cursors lie in the buffer one behind the other, and the memory `mem` has changed only in the
buffer. -/
structure Arena.Laid (b : Span) (mem : Mem) (s : Arena) : Prop where
  start : s.pool.start = b.start
  stop : s.pool.stop = b.stop
  lower : b.start ≤ s.pool.p
  upper : s.pool.p ≤ b.stop
  slices : ∀ w ∈ s.slices, (w.on s.mem).InBounds ∧ b.start ≤ w.start ∧ w.stop ≤ s.pool.p
  apart : (s.slices.map Window.extent).Pairwise fun e e' => e.2 ≤ e'.1
  outside : ∀ a, a < b.start ∨ b.stop ≤ a → s.mem a = mem a

/-- An arena in a span is laid out there. -/
theorem laid_arena (b : Span) (mem : Mem) : (b.arena mem).Laid b mem where
  start := rfl
  stop := rfl
  lower := le_rfl
  upper := b.ordered
  slices := by simp [Span.arena]
  apart := .nil
  outside _ _ := rfl

/-- It is one empty tape of all the room. -/
theorem tapes_arena (b : Span) (mem : Mem) : (b.arena mem).tapes = ⟨b.stop - b.start, []⟩ := rfl

/-- A tape depends on its buffer only. -/
theorem tape_congr {w : Window} {mem mem' : Mem} (h : (w.on mem).InBounds)
    (hmem : ∀ a, w.start ≤ a → a < w.stop → mem' a = mem a) :
    (w.on mem').tape = (w.on mem).tape := by
  have hlower : w.start ≤ w.p := h.lower
  have hupper : w.p ≤ w.stop := h.upper
  refine Tape.ext ?_ ?_
  · exact Mem.slice_congr fun a ha ha' => hmem a ha (ha'.trans_le hupper)
  · exact Mem.slice_congr fun a ha ha' => hmem a (hlower.trans ha) ha'

/-- Copying from one cursor to another moves the one and writes at the other. -/
theorem pull_data_of_fits (n : Length) {w w' : Window} {mem : Mem} (h : w.p + n.toNat ≤ w.stop)
    (h' : w'.p + n.toNat ≤ w'.stop) :
    pullDataIntoCursor n.int w w' mem =
      some (some w'.p, ((w.on mem).advance n.toNat).window,
        ((w'.on mem).write ((w.on mem).tape.after.take n.toNat)).window,
        ((w'.on mem).write ((w.on mem).tape.after.take n.toNat)).mem) := by
  have hdata : (w.on mem).tape.after.take n.toNat = mem.slice w.p (w.p + n.toNat) :=
    mem.take_slice h
  have hpull : cursorPull n.int (w.on mem) =
      some (some (mem.slice w.p (w.p + n.toNat)), (w.on mem).advance n.toNat) := by
    have hroom : ¬ ((w.on mem).p : Int) + n.toNat > (w.on mem).stop := by
      show ¬ (w.p : Int) + n.toNat > w.stop
      omega
    rw [cursorPull, n.to_int, if_neg hroom, if_neg (by omega), Int.toNat_natCast]
    rfl
  rw [pullDataIntoCursor, n.to_int, if_neg (by omega), hpull, hdata]
  simp [Cursor.window, Window.on, Cursor.write]

/-- Where one of the two cursors has less than is asked for, nothing moves. -/
theorem pull_data_of_not_fits (n : Length) {w w' : Window} {mem : Mem}
    (h : ¬ (w.p + n.toNat ≤ w.stop ∧ w'.p + n.toNat ≤ w'.stop)) :
    pullDataIntoCursor n.int w w' mem = some (none, w, w', mem) := by
  rw [pullDataIntoCursor, n.to_int]
  by_cases hdest : (w'.p : Int) + n.toNat > w'.stop
  · rw [if_pos hdest]
  · have hfull : ((w.on mem).p : Int) + n.toNat > (w.on mem).stop := by
      show (w.p : Int) + n.toNat > w.stop
      omega
    rw [if_neg hdest, cursorPull, n.to_int, if_pos hfull]
    rfl

/-- Setting an item to what it is changes nothing. -/
theorem set_of_getElem? {α : Type} {l : List α} {i : Nat} {a : α} (h : l[i]? = some a) :
    l.set i a = l := by
  obtain ⟨hi, rfl⟩ := List.getElem?_eq_some_iff.mp h
  exact List.set_getElem_self hi

section

variable {b : Span} {mem : Mem} {s : Arena} (h : s.Laid b mem)

include h

/-- Two cursors have no address in common. -/
theorem Arena.Laid.disjoint {i j : Nat} {w w' : Window} (hi : s.slices[i]? = some w)
    (hj : s.slices[j]? = some w') (hne : i ≠ j) : w.stop ≤ w'.start ∨ w'.stop ≤ w.start := by
  have hei : (s.slices.map Window.extent)[i]? = some w.extent := by rw [List.getElem?_map, hi]; rfl
  have hej : (s.slices.map Window.extent)[j]? = some w'.extent := by rw [List.getElem?_map, hj]; rfl
  obtain ⟨hi, hei⟩ := List.getElem?_eq_some_iff.mp hei
  obtain ⟨hj, hej⟩ := List.getElem?_eq_some_iff.mp hej
  have happart := List.pairwise_iff_getElem.mp h.apart
  rcases Nat.lt_or_gt_of_ne hne with hlt | hlt
  · have hle := happart i j hi hj hlt
    rw [hei, hej] at hle
    exact .inl hle
  · have hle := happart j i hj hi hlt
    rw [hei, hej] at hle
    exact .inr hle

/-- What a call does to one cursor, it does to one tape. -/
theorem Arena.Laid.update {i : Nat} {w : Window} (hi : s.slices[i]? = some w) {cur : Cursor}
    (hstays : (w.on s.mem).Stays cur) :
    (s.put i cur).Laid b mem ∧ (s.put i cur).tapes = s.tapes.put i cur.tape := by
  obtain ⟨hbounds, hstart, hstop⟩ := h.slices w (List.mem_of_getElem? hi)
  have hextent : cur.window.extent = w.extent := Prod.ext hstays.start hstays.stop
  refine ⟨⟨h.start, h.stop, h.lower, h.upper, ?_, ?_, ?_⟩, ?_⟩
  · intro w' hw'
    rcases List.mem_or_eq_of_mem_set hw' with hw' | rfl
    · exact ⟨⟨(h.slices w' hw').1.lower, (h.slices w' hw').1.upper⟩, (h.slices w' hw').2⟩
    · exact ⟨hstays.bounds, hstart.trans hstays.start.ge, hstays.stop.le.trans hstop⟩
  · show ((s.slices.set i cur.window).map Window.extent).Pairwise _
    rw [List.map_set, hextent, set_of_getElem? (by rw [List.getElem?_map, hi, Option.map_some])]
    exact h.apart
  · intro a ha
    have hupper := h.upper
    have hout : a < w.start ∨ w.stop ≤ a := by omega
    exact (hstays.outside a hout).trans (h.outside a ha)
  · refine congrArg (Tapes.mk _) (List.ext_getElem? fun j => ?_)
    show ((s.slices.set i cur.window).map fun w => (w.on cur.mem).tape)[j]? =
      ((s.slices.map fun w => (w.on s.mem).tape).set i cur.tape)[j]?
    by_cases hij : i = j
    · obtain ⟨hlt, -⟩ := List.getElem?_eq_some_iff.mp hi
      subst hij
      rw [List.getElem?_map, List.getElem?_set_self hlt,
        List.getElem?_set_self (by simpa using hlt)]
      rfl
    · rw [List.getElem?_map, List.getElem?_set_ne hij, List.getElem?_set_ne hij, List.getElem?_map]
      refine Option.map_congr fun w' hw' => ?_
      -- the other buffer is not touched
      have happart := h.disjoint hi hw' hij
      have hin := (h.slices w' (List.mem_of_getElem? hw')).1
      refine tape_congr hin fun a ha ha' => hstays.outside a ?_
      show a < w.start ∨ w.stop ≤ a
      omega

/-- What a call on one cursor does to the arena. -/
theorem Arena.Laid.on (order : ByteOrder) (i : Nat) (call : CursorCall) :
    (s.step order (.on i call)).map (Prod.map id Arena.tapes) =
        s.tapes.step order (.on i call) ∧
      ∀ x ∈ s.step order (.on i call), x.2.Laid b mem := by
  have htape : s.tapes.tapes[i]? = s.slices[i]?.map fun w => (w.on s.mem).tape := List.getElem?_map
  rw [Arena.step, Tapes.step, htape]
  cases hi : s.slices[i]? with
  | none => exact ⟨rfl, by simp⟩
  | some w =>
      obtain ⟨hcall, hstays⟩ := call_refines order (h.slices w (List.mem_of_getElem? hi)).1 call
      rw [Option.map_some, Option.bind_some, Option.bind_some, ← hcall]
      cases hrun : call.run order (w.on s.mem) with
      | none => exact ⟨rfl, by simp⟩
      | some x =>
          obtain ⟨hlaid, htapes⟩ := h.update hi (hstays x hrun)
          constructor
          · exact congrArg (fun t => some (x.1, t)) htapes
          · rintro _ ⟨⟩
            exact hlaid

omit h in
/-- A cursor that did not move. -/
theorem Arena.put_same {i : Nat} {w : Window} (hi : s.slices[i]? = some w) :
    s.put i (w.on s.mem) = s := by
  show { s with mem := s.mem, slices := s.slices.set i w } = s
  rw [set_of_getElem? hi]

/-- What copying from one cursor to another does to the arena. -/
theorem Arena.Laid.pull_data_into (order : ByteOrder) (i j : Nat) (n : Length) :
    (s.step order (.pullDataInto i j n)).map (Prod.map id Arena.tapes) =
        s.tapes.step order (.pullDataInto i j n) ∧
      ∀ x ∈ s.step order (.pullDataInto i j n), x.2.Laid b mem := by
  have htape : ∀ k, s.tapes.tapes[k]? = s.slices[k]?.map fun (w : Window) => (w.on s.mem).tape :=
    fun _ => List.getElem?_map
  rw [Arena.step, Tapes.step]
  by_cases hij : i = j
  · rw [if_pos hij, if_pos hij]
    exact ⟨rfl, by simp⟩
  rw [if_neg hij, if_neg hij, htape, htape]
  cases hi : s.slices[i]? with
  | none => exact ⟨rfl, by simp⟩
  | some w =>
  cases hj : s.slices[j]? with
  | none => exact ⟨rfl, by simp⟩
  | some w' =>
      have hw := (h.slices w (List.mem_of_getElem? hi)).1
      have hw' := (h.slices w' (List.mem_of_getElem? hj)).1
      have hupper : w.p ≤ w.stop := hw.upper
      have hupper' : w'.p ≤ w'.stop := hw'.upper
      have hsame : (s.put i (w.on s.mem)).put j (w'.on s.mem) = s := by
        rw [Arena.put_same hi, Arena.put_same hj]
      by_cases hfits : w.p + n.toNat ≤ w.stop ∧ w'.p + n.toNat ≤ w'.stop
      · have hroom : n.toNat ≤ (w.on s.mem).tape.after.length ∧
            n.toNat ≤ (w'.on s.mem).tape.after.length := by
          simp only [Cursor.length_after, Window.on]
          omega
        have hlen : ((w.on s.mem).tape.after.take n.toNat).length = n.toNat := by
          rw [List.length_take, Nat.min_eq_left hroom.1]
        simp only [Option.map_some, Option.bind_some, pull_data_of_fits n hfits.1 hfits.2,
          if_pos hroom]
        generalize (w.on s.mem).tape.after.take n.toNat = data at hlen
        have hwrite : (w'.on s.mem).p + data.length ≤ (w'.on s.mem).stop := by
          rw [hlen]
          exact hfits.2
        -- the two cursors move one after the other
        obtain ⟨hfirst, htapes⟩ := h.update hi (Cursor.stays_advance hw hfits.1)
        have hj' : (s.put i ((w.on s.mem).advance n.toNat)).slices[j]? = some w' := by
          rw [← hj]
          exact List.getElem?_set_ne hij
        obtain ⟨hsecond, htapes'⟩ := hfirst.update hj' (Cursor.stays_write hw' hwrite)
        rw [htapes, Cursor.tape_advance hw hfits.1, Cursor.tape_write hw' hwrite] at htapes'
        have hcopied : copied ((w'.on s.mem).write data).mem n.toNat (some w'.p) =
            .octets data := by
          rw [← hlen]
          exact congrArg Reply.octets (s.mem.slice_store w'.p data)
        refine ⟨?_, by rintro _ ⟨⟩; exact hsecond⟩
        rw [hcopied]
        exact congrArg (fun t => some (Reply.octets data, t)) htapes'
      · have hroom : ¬ (n.toNat ≤ (w.on s.mem).tape.after.length ∧
            n.toNat ≤ (w'.on s.mem).tape.after.length) := by
          simp only [Cursor.length_after, Window.on]
          omega
        simp only [Option.map_some, Option.bind_some, pull_data_of_not_fits n hfits, if_neg hroom,
          hsame]
        exact ⟨rfl, by rintro _ ⟨⟩; exact h⟩

omit h in
/-- Cutting off a cursor whose end address does not wrap. -/
theorem cursor_slice_eq (size : UInt64) (w : Window) (mem : Mem) {n : Nat} (hn : size.toNat = n)
    (hwrap : w.p + n < 2 ^ 64) :
    cursorSlice size (w.on mem) =
      if w.p + n ≤ w.stop then
        (some ⟨w.p, w.p, w.p + n⟩,
          Window.on { w with p := w.p + n } (mem.store w.p (List.replicate n 0)))
      else (none, w.on mem) := by
  have hmalloc : cursorMalloc size (w.on mem) =
      if w.p + n ≤ w.stop then (some w.p, Window.on { w with p := w.p + n } mem)
      else (none, w.on mem) := by
    have hmod : ((w.on mem).p + n) % 2 ^ 64 = w.p + n := Nat.mod_eq_of_lt hwrap
    simp only [cursorMalloc, hn, hmod]
    by_cases hroom : w.p + n ≤ w.stop
    · rw [if_pos hroom]
      exact if_neg (Nat.not_lt.mpr hroom)
    · rw [if_neg hroom]
      exact if_pos (Nat.lt_of_not_le hroom)
  rw [cursorSlice, cursorAlloc, hmalloc]
  by_cases hroom : w.p + n ≤ w.stop
  · simp only [if_pos hroom, hn]
    rfl
  · simp only [if_neg hroom]

/-- The octets a new cursor gets lie behind all others. -/
theorem Arena.Laid.append {n : Nat} (hn : s.pool.p + n ≤ b.stop) :
    let s' : Arena := ⟨s.mem.store s.pool.p (List.replicate n 0), { s.pool with p := s.pool.p + n },
      s.slices ++ [⟨s.pool.p, s.pool.p, s.pool.p + n⟩]⟩
    s'.Laid b mem ∧
      s'.tapes = ⟨s.tapes.room - n, s.tapes.tapes ++ [.fresh (List.replicate n 0)]⟩ := by
  intro s'
  have hlower := h.lower
  have hlen : (List.replicate n (0 : UInt8)).length = n := List.length_replicate
  have hold : ∀ w ∈ s.slices, (w.on s'.mem).tape = (w.on s.mem).tape := by
    intro w hw
    obtain ⟨hin, -, hstop⟩ := h.slices w hw
    exact tape_congr hin fun a _ ha => s.mem.store_outside _ _ (.inl (ha.trans_le hstop))
  have hnew : (s.mem.store s.pool.p (List.replicate n 0)).slice s.pool.p (s.pool.p + n) =
      List.replicate n 0 := by
    have hslice := s.mem.slice_store s.pool.p (List.replicate n 0)
    rwa [hlen] at hslice
  constructor
  · refine ⟨h.start, h.stop, Nat.le_add_right_of_le hlower, hn, ?_, ?_, ?_⟩
    · intro w hw
      rcases List.mem_append.mp hw with hw | hw
      · obtain ⟨⟨hl, hu⟩, hstart, hstop⟩ := h.slices w hw
        exact ⟨⟨hl, hu⟩, hstart, hstop.trans (Nat.le_add_right _ _)⟩
      · obtain rfl := List.mem_singleton.mp hw
        exact ⟨⟨le_rfl, Nat.le_add_right _ _⟩, hlower, le_rfl⟩
    · show ((s.slices ++ [_]).map Window.extent).Pairwise _
      rw [List.map_append, List.pairwise_append]
      refine ⟨h.apart, List.pairwise_singleton _ _, fun e he e' he' => ?_⟩
      obtain ⟨w, hw, rfl⟩ := List.mem_map.mp he
      obtain rfl := List.mem_singleton.mp he'
      exact (h.slices w hw).2.2
    · intro a ha
      have hout : a < s.pool.p ∨ s.pool.p + (List.replicate n (0 : UInt8)).length ≤ a := by omega
      exact (s.mem.store_outside _ _ hout).trans (h.outside a ha)
  · have hroom : s.pool.stop - (s.pool.p + n) = s.pool.stop - s.pool.p - n := by omega
    show Tapes.mk _ ((s.slices ++ [_]).map fun (w : Window) => (w.on s'.mem).tape) = _
    rw [List.map_append, List.map_congr_left hold, List.map_singleton]
    refine congrArg₂ Tapes.mk hroom (congrArg (_ ++ [·]) (Tape.ext ?_ hnew))
    show Mem.slice _ s.pool.p s.pool.p = []
    simp [Mem.slice]

/-- Cutting off a cursor, or having no room for it. -/
theorem Arena.Laid.slice (order : ByteOrder) (size : Size) :
    (s.step order (.slice size)).map (Prod.map id Arena.tapes) =
        s.tapes.step order (.slice size) ∧
      ∀ x ∈ s.step order (.slice size), x.2.Laid b mem := by
  have hupper := h.upper
  have hlow := b.low
  have hsmall := size.small
  have hstop := h.stop
  have hslice := cursor_slice_eq size.toUInt64 s.pool s.mem rfl (by omega)
  rw [Arena.step, Tapes.step, hslice]
  have hiff : s.pool.p + size.toUInt64.toNat ≤ s.pool.stop ↔
      size.toUInt64.toNat ≤ s.tapes.room := by
    show _ ↔ _ ≤ s.pool.stop - s.pool.p
    omega
  by_cases hroom : s.pool.p + size.toUInt64.toNat ≤ s.pool.stop
  · obtain ⟨hlaid, htapes⟩ := h.append (hroom.trans hstop.le)
    simp only [if_pos hroom, if_pos (hiff.mp hroom)]
    refine ⟨?_, by rintro _ ⟨⟩; exact hlaid⟩
    exact congrArg (fun t => some (Reply.done, t)) htapes
  · simp only [if_neg hroom, if_neg (hiff.not.mp hroom)]
    exact ⟨rfl, by rintro _ ⟨⟩; exact h⟩

end

/-- However the cursors of a buffer are cut off and used, their calls are answered as those of
separate tapes that are zero at first, and the memory outside the buffer stays as it is. -/
theorem arena_run (order : ByteOrder) (b : Span) (mem : Mem) (calls : List ArenaCall) :
    (run (Arena.step order) (b.arena mem) calls).map (Prod.map id Arena.tapes) =
        run (Tapes.step order) ⟨b.stop - b.start, []⟩ calls ∧
      ∀ r, run (Arena.step order) (b.arena mem) calls = some r →
        ∀ a, a < b.start ∨ b.stop ≤ a → r.2.mem a = mem a := by
  have hstep : ∀ (s : Arena) (call : ArenaCall), s.Laid b mem →
      (s.step order call).map (Prod.map id Arena.tapes) = s.tapes.step order call ∧
        ∀ x ∈ s.step order call, x.2.Laid b mem := by
    intro s call h
    cases call with
    | slice size => exact h.slice order size
    | on i call => exact h.on order i call
    | pullDataInto i j n => exact h.pull_data_into order i j n
  have hkeep : ∀ (s : Arena) (call : ArenaCall) (x : Reply × Arena), s.Laid b mem →
      s.step order call = some x → x.2.Laid b mem := fun s call x h => (hstep s call h).2 x
  constructor
  · rw [← tapes_arena b mem]
    exact run_refines hkeep (fun s call h => (hstep s call h).1) (laid_arena b mem) calls
  · intro r hr
    exact (run_invariant hkeep (laid_arena b mem) hr).outside

end Gnostr
