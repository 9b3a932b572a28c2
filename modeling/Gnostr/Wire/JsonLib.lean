import Gnostr.Wire.JsonRender

/-!
# A JSON library as a program sees it

A program that keeps its data in JSON calls a library to parse and to dump values, reads
members and elements out of them, and converts numbers to machine integers. `JsonLib` holds
the functions of the library, `JsonLib.Lawful` what a program relies on: dumping a value and
parsing the text gives the value back, a value whose strings are UTF-8 can be dumped, and
parsed strings are UTF-8. `JsonLib.reference` is a library that obeys these laws.

Objects are kept sorted by name with no name twice, as an ordered map keeps them.
-/

namespace Wire

namespace Json

/-! ## Objects, arrays and conversions -/

/-- Assign a member of an ordered map. -/
def insert (key : Bytes) (v : Json) : List (Bytes × Json) → List (Bytes × Json)
  | [] => [(key, v)]
  | (k, w) :: ms =>
      if key < k then (key, v) :: (k, w) :: ms
      else if key = k then (key, v) :: ms
      else (k, w) :: insert key v ms

/-- The member of an object with a given name. -/
def member (key : Bytes) : Json → Option Json
  | .obj ms => (ms.find? fun m => m.1 = key).map Prod.snd
  | _ => none

/-- The element of an array at a given index. -/
def element (index : Nat) : Json → Option Json
  | .arr vs => vs[index]?
  | _ => none

/-- The text of a string. -/
def toStr : Json → Option Bytes
  | .str t => some t
  | _ => none

/-- The items of an array, when all of them convert. -/
def toList {α : Type} (item : Json → Option α) : Json → Option (List α)
  | .arr vs => vs.mapM item
  | _ => none

/-- A number as an integer; `truncate` casts a floating-point number. -/
def toNumber (truncate : Int → Int → Int) : Json → Option Int
  | .int z => some z
  | .real m e => some (truncate m e)
  | _ => none

/-- A number or a truth value as an integer. -/
def toArithmetic (truncate : Int → Int → Int) : Json → Option Int
  | .bool b => some (if b then 1 else 0)
  | v => toNumber truncate v

/-! ## Well-formed values -/

mutual
/-- Every string of the value is well-formed UTF-8, names included. -/
def isUtf8 : Json → Bool
  | .str t => Utf8 t
  | .arr vs => itemsUtf8 vs
  | .obj ms => membersUtf8 ms
  | _ => true

/-- `isUtf8` of every element. -/
def itemsUtf8 : List Json → Bool
  | [] => true
  | v :: vs => isUtf8 v && itemsUtf8 vs

/-- `isUtf8` of every name and every member. -/
def membersUtf8 : List (Bytes × Json) → Bool
  | [] => true
  | (key, v) :: ms => Utf8 key && isUtf8 v && membersUtf8 ms
end

/-- The integers a library keeps exactly: those of 64 bits, signed or unsigned. -/
def isWord (z : Int) : Bool :=
  -2 ^ 63 ≤ z && z < 2 ^ 64

mutual
/-- A value that survives being written out: no floating-point number, every integer of 64 bits,
every object sorted by name. -/
def isStorable : Json → Bool
  | .int z => isWord z
  | .real _ _ => false
  | .arr vs => itemsStorable vs
  | .obj ms => (ms.map Prod.fst).Pairwise (· < ·) && membersStorable ms
  | _ => true

/-- `isStorable` of every element. -/
def itemsStorable : List Json → Bool
  | [] => true
  | v :: vs => isStorable v && itemsStorable vs

/-- `isStorable` of every member. -/
def membersStorable : List (Bytes × Json) → Bool
  | [] => true
  | (_, v) :: ms => isStorable v && membersStorable ms
end

/-- A string is UTF-8 when its text is. -/
@[simp] theorem is_utf8_str (t : Bytes) : isUtf8 (.str t) = true ↔ Utf8 t := by
  simp [isUtf8]

/-- An array is when its items are. -/
@[simp] theorem is_utf8_arr (vs : List Json) :
    isUtf8 (.arr vs) = true ↔ ∀ v ∈ vs, isUtf8 v = true := by
  rw [isUtf8]
  induction vs with
  | nil => simp [itemsUtf8]
  | cons v vs ih => simp [itemsUtf8, ih]

/-- An object is when its names and values are. -/
@[simp] theorem is_utf8_obj (ms : List (Bytes × Json)) :
    isUtf8 (.obj ms) = true ↔ ∀ m ∈ ms, Utf8 m.1 ∧ isUtf8 m.2 = true := by
  rw [isUtf8]
  induction ms with
  | nil => simp [membersUtf8]
  | cons m ms ih => simp [membersUtf8, ih]

/-- A member of a UTF-8 value is one. -/
theorem is_utf8_member {v w : Json} {key : Bytes} (h : v.isUtf8 = true)
    (hmember : v.member key = some w) : w.isUtf8 = true := by
  cases v with
  | obj ms =>
      obtain ⟨m, hfind, rfl⟩ := Option.map_eq_some_iff.mp hmember
      exact ((is_utf8_obj ms).mp h m (List.mem_of_find?_eq_some hfind)).2
  | _ => cases hmember

/-- So is an item. -/
theorem is_utf8_element {v w : Json} {index : Nat} (h : v.isUtf8 = true)
    (helement : v.element index = some w) : w.isUtf8 = true := by
  cases v with
  | arr vs => exact (is_utf8_arr vs).mp h w (List.mem_of_getElem? helement)
  | _ => cases helement

/-- And the text of a string. -/
theorem utf8_to_str {v : Json} {t : Bytes} (h : v.isUtf8 = true) (hstr : v.toStr = some t) :
    Utf8 t := by
  cases v with
  | str text =>
      obtain rfl := Option.some.inj hstr
      exact (is_utf8_str _).mp h
  | _ => cases hstr

/-- The items of a converted array come from its elements. -/
theorem of_mem_to_list {α : Type} {item : Json → Option α} {v : Json} {xs : List α} {x : α}
    (hlist : v.toList item = some xs) (hx : x ∈ xs) (h : v.isUtf8 = true) :
    ∃ w, w.isUtf8 = true ∧ item w = some x := by
  cases v with
  | arr vs =>
      rw [is_utf8_arr] at h
      simp only [toList] at hlist
      induction vs generalizing xs with
      | nil =>
          obtain rfl := Option.some.inj hlist
          exact absurd hx List.not_mem_nil
      | cons w vs ih =>
          rw [List.mapM_cons] at hlist
          obtain ⟨y, hitem, hrest⟩ := Option.bind_eq_some_iff.mp hlist
          obtain ⟨ys, hys, hlist⟩ := Option.bind_eq_some_iff.mp hrest
          obtain rfl := Option.some.inj hlist
          rcases List.mem_cons.mp hx with rfl | hx
          · exact ⟨w, h w List.mem_cons_self, hitem⟩
          · exact ih hx hys fun u hu => h u (List.mem_cons_of_mem _ hu)
  | _ => cases hlist

/-- A number is UTF-8. -/
@[simp] theorem is_utf8_int (z : Int) : isUtf8 (.int z) = true := by
  simp [isUtf8]

/-- A string can be stored. -/
@[simp] theorem is_storable_str (t : Bytes) : isStorable (.str t) = true := by
  simp [isStorable]

/-- A number can when it fits into a word. -/
@[simp] theorem is_storable_int (z : Int) : isStorable (.int z) = isWord z := by
  simp [isStorable]

/-- An array can when its items can. -/
@[simp] theorem is_storable_arr (vs : List Json) :
    isStorable (.arr vs) = true ↔ ∀ v ∈ vs, isStorable v = true := by
  rw [isStorable]
  induction vs with
  | nil => simp [itemsStorable]
  | cons v vs ih => simp [itemsStorable, ih]

/-- An object can when its names are sorted and its values can. -/
@[simp] theorem is_storable_obj (ms : List (Bytes × Json)) :
    isStorable (.obj ms) = true ↔
      (ms.map Prod.fst).Pairwise (· < ·) ∧ ∀ m ∈ ms, isStorable m.2 = true := by
  have hmembers : membersStorable ms = true ↔ ∀ m ∈ ms, isStorable m.2 = true := by
    induction ms with
    | nil => simp [membersStorable]
    | cons m ms ih => simp [membersStorable, ih]
  rw [isStorable, Bool.and_eq_true, decide_eq_true_eq, hmembers]

/-! ## Assigning a member -/

/-- Assigning a member changes that member only. -/
theorem member_insert (key key' : Bytes) (v : Json) (ms : List (Bytes × Json)) :
    (obj (insert key v ms)).member key' =
      if key = key' then some v else (obj ms).member key' := by
  simp only [member]
  induction ms with
  | nil => by_cases h : key = key' <;> simp [insert, h]
  | cons m ms ih =>
      obtain ⟨k, w⟩ := m
      simp only [insert]
      by_cases h : key = key'
      · subst h
        rw [if_pos rfl] at ih ⊢
        split_ifs with hlt heq
        · simp
        · simp
        · rw [List.find?_cons_of_neg (by simpa using Ne.symm heq), ih]
      · rw [if_neg h] at ih ⊢
        split_ifs with hlt heq
        · rw [List.find?_cons_of_neg (by simpa using h)]
        · subst heq
          rw [List.find?_cons_of_neg (by simpa using h), List.find?_cons_of_neg (by simpa using h)]
        · simp only [List.find?_cons]
          split
          · rfl
          · exact ih

/-- What is in the members is the new one or was there. -/
theorem of_mem_insert {key : Bytes} {v : Json} {m : Bytes × Json} {ms : List (Bytes × Json)}
    (h : m ∈ insert key v ms) : m = (key, v) ∨ m ∈ ms := by
  induction ms with
  | nil => simpa [insert] using h
  | cons n ms ih =>
      obtain ⟨k, w⟩ := n
      simp only [insert] at h
      split_ifs at h
      · exact List.mem_cons.mp h
      · rcases List.mem_cons.mp h with h | h
        · exact .inl h
        · exact .inr (List.mem_cons_of_mem _ h)
      · rcases List.mem_cons.mp h with h | h
        · exact .inr (h ▸ List.mem_cons_self)
        · exact (ih h).imp_right (List.mem_cons_of_mem _)

/-- Inserting a member keeps the names sorted. -/
theorem sorted_insert {key : Bytes} {v : Json} {ms : List (Bytes × Json)}
    (h : (ms.map Prod.fst).Pairwise (· < ·)) :
    ((insert key v ms).map Prod.fst).Pairwise (· < ·) := by
  rw [List.pairwise_map] at h ⊢
  induction ms with
  | nil => simp [insert]
  | cons m ms ih =>
      obtain ⟨k, w⟩ := m
      obtain ⟨hfirst, hrest⟩ := List.pairwise_cons.mp h
      simp only [insert]
      split_ifs with hlt heq
      · refine List.pairwise_cons.mpr ⟨fun n hn => ?_, h⟩
        rcases List.mem_cons.mp hn with rfl | hn
        · exact hlt
        · exact List.lt_trans hlt (hfirst n hn)
      · subst heq
        exact List.pairwise_cons.mpr ⟨hfirst, hrest⟩
      · have hgt : k < key := by
          by_contra hle
          exact heq (List.le_antisymm hle hlt)
        refine List.pairwise_cons.mpr ⟨fun n hn => ?_, ih hrest⟩
        rcases of_mem_insert hn with rfl | hn
        · exact hgt
        · exact hfirst n hn
/-- An object stays storable when a storable member is assigned. -/
theorem is_storable_insert {key : Bytes} {v : Json} {ms : List (Bytes × Json)}
    (h : (obj ms).isStorable = true) (hv : v.isStorable = true) :
    (obj (insert key v ms)).isStorable = true := by
  obtain ⟨hsorted, hstore⟩ := (is_storable_obj ms).mp h
  refine (is_storable_obj _).mpr ⟨sorted_insert hsorted, fun m hm => ?_⟩
  rcases of_mem_insert hm with rfl | hm
  · exact hv
  · exact hstore m hm

/-- An object stays UTF-8 when a member in UTF-8 is assigned. -/
theorem is_utf8_insert {key : Bytes} {v : Json} {ms : List (Bytes × Json)}
    (h : (obj ms).isUtf8 = true) (hkey : Utf8 key) (hv : v.isUtf8 = true) :
    (obj (insert key v ms)).isUtf8 = true := by
  rw [is_utf8_obj] at h ⊢
  intro m hm
  rcases of_mem_insert hm with rfl | hm
  · exact ⟨hkey, hv⟩
  · exact h m hm

end Json

/-! ## The library -/

/-- The functions a program calls. `dump` takes the width of the indentation, or nothing for a
text on one line, and fails on strings that are not UTF-8. `truncate m e` is what casting the
floating-point number `m * 10 ^ e` to an integer gives. -/
structure JsonLib where
  parse : Bytes → Option Json
  dump : Option Nat → Json → Option Bytes
  truncate : Int → Int → Int

/-- What a program relies on. -/
structure JsonLib.Lawful (lib : JsonLib) : Prop where
  round_trip : ∀ {indent : Option Nat} {v : Json} {t : Bytes},
    v.isStorable = true → lib.dump indent v = some t → lib.parse t = some v
  dump_utf8 : ∀ (indent : Option Nat) {v : Json}, v.isUtf8 = true → ∃ t, lib.dump indent v = some t
  parse_utf8 : ∀ {t : Bytes} {v : Json}, lib.parse t = some v → v.isUtf8 = true

/-- A program that counts on bad strings being refused relies on this as well: only values in
UTF-8 are dumped. -/
def JsonLib.Strict (lib : JsonLib) : Prop :=
  ∀ (indent : Option Nat) (v : Json) (t : Bytes), lib.dump indent v = some t → v.isUtf8 = true

namespace Json

/-! ## A library that obeys the laws -/

/-- A lower case hexadecimal digit. -/
def lowerHex (n : UInt8) : UInt8 :=
  if n < 10 then 48 + n else 87 + n

/-- A byte inside a string: short escapes where there are any, `\u00..` for the other control
characters, everything else as it is. -/
def renderChar (c : UInt8) : Bytes :=
  if c = 34 then [92, 34]
  else if c = 92 then [92, 92]
  else if c = 8 then [92, 98]
  else if c = 12 then [92, 102]
  else if c = 10 then [92, 110]
  else if c = 13 then [92, 114]
  else if c = 9 then [92, 116]
  else if c < 32 then [92, 117, 48, 48, lowerHex (c / 16), lowerHex (c % 16)]
  else [c]

/-- A new line with its indentation, or nothing when the text has no line breaks. -/
def lineBreak (indent : Option Nat) (depth : Nat) : Bytes :=
  match indent with
  | none => []
  | some width => 10 :: List.replicate (width * depth) 32

/-- The space after a colon, in a text with line breaks. -/
def colonSpace (indent : Option Nat) : Bytes :=
  if indent.isSome then [32] else []

mutual
/-- The text of a value at a depth of nesting. -/
def render (indent : Option Nat) (depth : Nat) : Json → Bytes
  | .null => ascii "null"
  | .bool b => if b then ascii "true" else ascii "false"
  | .int z => signedDecimal z
  | .real m e => signedDecimal m ++ 101 :: signedDecimal e
  | .str t => 34 :: (t.flatMap renderChar ++ [34])
  | .arr vs => if vs.isEmpty then [91, 93] else 91 :: renderItems indent depth vs
  | .obj ms => if ms.isEmpty then [123, 125] else 123 :: renderMembers indent depth ms

/-- The elements of an array up to the closing bracket. -/
def renderItems (indent : Option Nat) (depth : Nat) : List Json → Bytes
  | [] => []
  | v :: vs =>
      lineBreak indent (depth + 1) ++ (render indent (depth + 1) v ++
        if vs.isEmpty then lineBreak indent depth ++ [93] else 44 :: renderItems indent depth vs)

/-- The members of an object up to the closing brace. -/
def renderMembers (indent : Option Nat) (depth : Nat) : List (Bytes × Json) → Bytes
  | [] => []
  | (key, v) :: ms =>
      lineBreak indent (depth + 1) ++ 34 :: (key.flatMap renderChar ++ 34 :: 58 ::
        (colonSpace indent ++ (render indent (depth + 1) v ++
          if ms.isEmpty then lineBreak indent depth ++ [125]
          else 44 :: renderMembers indent depth ms)))
end

mutual
/-- What a parser makes of a decoded value: integers past 64 bits become floating-point
numbers, and of two members with one name the later one stays. -/
def normalise : Json → Json
  | .int z => if isWord z then .int z else .real z 0
  | .arr vs => .arr (normaliseItems vs)
  | .obj ms => .obj (normaliseMembers [] ms)
  | v => v

/-- Every element normalised. -/
def normaliseItems : List Json → List Json
  | [] => []
  | v :: vs => normalise v :: normaliseItems vs

/-- Members assigned in order to a map. -/
def normaliseMembers (done : List (Bytes × Json)) : List (Bytes × Json) → List (Bytes × Json)
  | [] => done
  | (key, v) :: ms => normaliseMembers (insert key (normalise v) done) ms
end

/-- The four digits of a control character. -/
theorem hex4_lower_hex {c : UInt8} (h : c < 32) :
    hex4 48 48 (lowerHex (c / 16)) (lowerHex (c % 16)) = some c.toNat := by
  have hcode : ∀ n : Fin 32, hex4 48 48 (lowerHex (UInt8.ofNat n / 16))
      (lowerHex (UInt8.ofNat n % 16)) = some (UInt8.ofNat n).toNat := by decide
  simpa using hcode ⟨c.toNat, UInt8.lt_iff_toNat_lt.mp h⟩

/-- A rendered byte is a character of the grammar that stands for it. -/
theorem chars_render_char (c : UInt8) {raw text : Bytes} (h : Chars raw text) :
    Chars (renderChar c ++ raw) (c :: text) := by
  unfold renderChar
  split_ifs with h₁ h₂ h₃ h₄ h₅ h₆ h₇ h₈
  · subst h₁
    exact .short rfl h
  · subst h₂
    exact .short rfl h
  · exact h₃ ▸ .short rfl h
  · exact h₄ ▸ .short rfl h
  · exact h₅ ▸ .short rfl h
  · exact h₆ ▸ .short rfl h
  · exact h₇ ▸ .short rfl h
  · have hlt : c.toNat < 32 := UInt8.lt_iff_toNat_lt.mp h₈
    have hcode := Chars.unicode (hex4_lower_hex h₈) (by simp [isHighSurrogate]; omega)
      (by simp [isLowSurrogate]; omega) h
    have hencode : utf8Encode c.toNat = [c] := by simp [utf8Encode, show c.toNat < 128 by omega]
    rw [hencode] at hcode
    exact hcode
  · exact .plain (UInt8.not_lt.mp h₈) h₁ h₂ h

/-- What is rendered stands for its text. -/
theorem chars_render (t : Bytes) : Chars (t.flatMap renderChar) t := by
  induction t with
  | nil => exact .nil
  | cons c t ih => exact chars_render_char c ih

/-- A line break is blank space. -/
theorem ws_line_break (indent : Option Nat) (depth : Nat) : Ws (lineBreak indent depth) := by
  cases indent with
  | none => exact ws_nil
  | some width =>
      intro b hb
      rcases List.mem_cons.mp hb with rfl | hb
      · rfl
      · rw [List.eq_of_mem_replicate hb]
        rfl

/-- So is what comes behind a colon. -/
theorem ws_colon_space (indent : Option Nat) : Ws (colonSpace indent) := by
  cases indent <;> simp [colonSpace, Ws, isWs]

mutual
/-- The text of a value without floating-point numbers is derived by the grammar. -/
theorem value_render (indent : Option Nat) (depth : Nat) :
    ∀ v : Json, v.isUtf8 = true → v.isStorable = true → Value (render indent depth v) v
  | .null, _, _ => .litNull
  | .bool true, _, _ => .litTrue
  | .bool false, _, _ => .litFalse
  | .int z, _, _ => value_signed_decimal z
  | .real m e, _, hstore => absurd hstore (by simp [isStorable])
  | .str t, hutf8, _ => .string (chars_render t) ((is_utf8_str t).mp hutf8)
  | .arr [], _, _ => .arrEmpty ws_nil
  | .arr (v :: vs), hutf8, hstore =>
      .arr (elements_render indent depth (v :: vs) (by simp) ((is_utf8_arr _).mp hutf8)
        ((is_storable_arr _).mp hstore))
  | .obj [], _, _ => .objEmpty ws_nil
  | .obj (m :: ms), hutf8, hstore =>
      .obj (members_render indent depth (m :: ms) (by simp) ((is_utf8_obj _).mp hutf8)
        ((is_storable_obj _).mp hstore).2)

/-- The items of an array are rendered. -/
theorem elements_render (indent : Option Nat) (depth : Nat) :
    ∀ vs : List Json, vs ≠ [] → (∀ v ∈ vs, v.isUtf8 = true) → (∀ v ∈ vs, v.isStorable = true) →
      Elements (renderItems indent depth vs) vs
  | [], hne, _, _ => absurd rfl hne
  | [v], _, hutf8, hstore =>
      .last (ws_line_break indent _)
        (value_render indent (depth + 1) v (hutf8 v (by simp)) (hstore v (by simp)))
        (ws_line_break indent depth)
  | v :: w :: vs, _, hutf8, hstore =>
      .cons (ws_line_break indent _)
        (value_render indent (depth + 1) v (hutf8 v (by simp)) (hstore v (by simp))) ws_nil
        (elements_render indent depth (w :: vs) (by simp)
          (fun u hu => hutf8 u (List.mem_cons_of_mem _ hu))
          fun u hu => hstore u (List.mem_cons_of_mem _ hu))

/-- And the members of an object. -/
theorem members_render (indent : Option Nat) (depth : Nat) :
    ∀ ms : List (Bytes × Json), ms ≠ [] → (∀ m ∈ ms, Utf8 m.1 ∧ m.2.isUtf8 = true) →
      (∀ m ∈ ms, m.2.isStorable = true) → Members (renderMembers indent depth ms) ms
  | [], hne, _, _ => absurd rfl hne
  | [(key, v)], _, hutf8, hstore =>
      .last (ws_line_break indent _) (chars_render key) (hutf8 (key, v) (by simp)).1 ws_nil
        (ws_colon_space indent)
        (value_render indent (depth + 1) v (hutf8 (key, v) (by simp)).2
          (hstore (key, v) (by simp)))
        (ws_line_break indent depth)
  | (key, v) :: n :: ms, _, hutf8, hstore =>
      .cons (ws_line_break indent _) (chars_render key) (hutf8 (key, v) (by simp)).1 ws_nil
        (ws_colon_space indent)
        (value_render indent (depth + 1) v (hutf8 (key, v) (by simp)).2
          (hstore (key, v) (by simp)))
        ws_nil
        (members_render indent depth (n :: ms) (by simp)
          (fun u hu => hutf8 u (List.mem_cons_of_mem _ hu))
          fun u hu => hstore u (List.mem_cons_of_mem _ hu))
end

/-- A name past all others goes to the end of the map. -/
theorem insert_last {key : Bytes} {v : Json} {ms : List (Bytes × Json)}
    (h : ∀ m ∈ ms, m.1 < key) : insert key v ms = ms ++ [(key, v)] := by
  induction ms with
  | nil => rfl
  | cons m ms ih =>
      have hm : m.1 < key := h m List.mem_cons_self
      have hrest := ih fun n hn => h n (List.mem_cons_of_mem _ hn)
      have hne : key ≠ m.1 := fun heq => List.lt_irrefl _ (heq ▸ hm)
      simp [insert, hrest, List.lt_asymm hm, hne]

mutual
/-- A storable value is in the form a parser gives it. -/
theorem normalise_storable : ∀ v : Json, v.isStorable = true → v.normalise = v
  | .null, _ => rfl
  | .bool _, _ => rfl
  | .int z, h => by
      simp only [isStorable] at h
      simp [normalise, h]
  | .real _ _, h => absurd h (by simp [isStorable])
  | .str _, _ => rfl
  | .arr vs, h => by
      simp [normalise, normalise_items_storable vs ((is_storable_arr vs).mp h)]
  | .obj ms, h => by
      obtain ⟨hsorted, hstore⟩ := (is_storable_obj ms).mp h
      simp [normalise, normalise_members_storable ms [] hsorted hstore]

/-- Items that can be stored are as they are kept. -/
theorem normalise_items_storable :
    ∀ vs : List Json, (∀ v ∈ vs, v.isStorable = true) → normaliseItems vs = vs
  | [], _ => rfl
  | v :: vs, h => by
      rw [normaliseItems, normalise_storable v (h v List.mem_cons_self),
        normalise_items_storable vs fun w hw => h w (List.mem_cons_of_mem _ hw)]

/-- So are members. -/
theorem normalise_members_storable :
    ∀ (ms done : List (Bytes × Json)), ((done ++ ms).map Prod.fst).Pairwise (· < ·) →
      (∀ m ∈ ms, m.2.isStorable = true) → normaliseMembers done ms = done ++ ms
  | [], done, _, _ => by simp [normaliseMembers]
  | (key, v) :: ms, done, hsorted, h => by
      have hlast : ∀ m ∈ done, m.1 < key := by
        rw [List.map_append, List.pairwise_append] at hsorted
        exact fun m hm => hsorted.2.2 m.1 (List.mem_map_of_mem hm) key (by simp)
      rw [normaliseMembers, normalise_storable v (h (key, v) List.mem_cons_self),
        insert_last hlast,
        normalise_members_storable ms _ (by simpa using hsorted)
          fun m hm => h m (List.mem_cons_of_mem _ hm)]
      simp
end

end Json

/-- A library that parses by the grammar and renders with the fewest escapes. -/
def JsonLib.reference : JsonLib where
  parse t := ((Json.decode t).map Json.normalise).filter Json.isUtf8
  dump indent v := if v.isUtf8 then some (v.render indent 0) else none
  truncate m e := if 0 ≤ e then m * 10 ^ e.toNat else m.tdiv (10 ^ (-e).toNat)

/-- What is rendered is parsed back. -/
theorem JsonLib.reference_parse {v : Json} (hutf8 : v.isUtf8 = true) (hstore : v.isStorable = true)
    (indent : Option Nat) : reference.parse (v.render indent 0) = some v := by
  have htext := Json.Text.mk Json.ws_nil (Json.value_render indent 0 v hutf8 hstore) Json.ws_nil
  simp only [List.nil_append, List.append_nil] at htext
  simp [reference, Json.decode_of_text htext, Json.normalise_storable v hstore, hutf8]

/-- The reference reads back what it writes. -/
theorem JsonLib.reference_lawful : JsonLib.reference.Lawful where
  round_trip {indent v t} hstore hdump := by
    by_cases hutf8 : v.isUtf8 = true
    · obtain rfl : v.render indent 0 = t := by simpa [reference, hutf8] using hdump
      exact reference_parse hutf8 hstore indent
    · simp [reference, hutf8] at hdump
  dump_utf8 indent v hutf8 := ⟨v.render indent 0, by simp [reference, hutf8]⟩
  parse_utf8 {t v} h := by
    simp only [reference, Option.filter_eq_some_iff] at h
    exact h.2

/-- And it refuses what is not UTF-8. -/
theorem JsonLib.reference_strict : JsonLib.reference.Strict := fun indent v t h => by
  by_contra hutf8
  simp [reference, hutf8] at h

end Wire
