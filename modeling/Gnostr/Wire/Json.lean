import Gnostr.Wire.Bytes

/-!
# JSON texts

JSON values, the grammar of RFC 8259 as a relation between texts and values, and an
executable decoder. `Text t v` says that the octets `t` are a JSON text for `v`, and
`decode t` reads the value off. Strings are kept as their UTF-8 octets. Numbers without
fraction and exponent are integers, all others are a decimal mantissa and exponent.
`Gnostr.Wire.JsonDecode` shows that the decoder accepts every text of the grammar.
-/

namespace Wire

/-- Where a reader of UTF-8 stands: the octets still owed to the current character, and the
range the next of them must lie in. -/
structure Utf8State where
  owed : Nat
  low : UInt8
  high : UInt8
  deriving DecidableEq

/-- Between two characters. -/
def Utf8State.start : Utf8State :=
  ⟨0, 0x80, 0xBF⟩

/-- The first octet of a character. Overlong forms, surrogates and values past U+10FFFF have
no first octet or a narrower second one. -/
def utf8First (b : UInt8) : Option Utf8State :=
  if b ≤ 0x7F then some .start
  else if 0xC2 ≤ b ∧ b ≤ 0xDF then some ⟨1, 0x80, 0xBF⟩
  else if b = 0xE0 then some ⟨2, 0xA0, 0xBF⟩
  else if b = 0xED then some ⟨2, 0x80, 0x9F⟩
  else if 0xE1 ≤ b ∧ b ≤ 0xEF then some ⟨2, 0x80, 0xBF⟩
  else if b = 0xF0 then some ⟨3, 0x90, 0xBF⟩
  else if 0xF1 ≤ b ∧ b ≤ 0xF3 then some ⟨3, 0x80, 0xBF⟩
  else if b = 0xF4 then some ⟨3, 0x80, 0x8F⟩
  else none

/-- Read octets from a state; the text must end between characters. -/
def utf8Run : Utf8State → Bytes → Bool
  | q, [] => q.owed == 0
  | q, b :: rest =>
      if q.owed = 0 then
        match utf8First b with
        | some next => utf8Run next rest
        | none => false
      else if q.low ≤ b ∧ b ≤ q.high then utf8Run ⟨q.owed - 1, 0x80, 0xBF⟩ rest
      else false

/-- The octets are well-formed UTF-8. -/
def Utf8 (t : Bytes) : Prop :=
  utf8Run .start t = true

/-- Well-formedness is decided by running the reader. -/
instance (t : Bytes) : Decidable (Utf8 t) :=
  inferInstanceAs (Decidable (_ = true))

/-- ASCII text is well-formed UTF-8. -/
theorem utf8_of_ascii {t : Bytes} (h : ∀ b ∈ t, b ≤ 0x7F) : Utf8 t := by
  induction t with
  | nil => rfl
  | cons b t ih =>
      have hb : utf8First b = some .start := if_pos (h b (by simp))
      have hrest : utf8Run .start t = true := ih fun c hc => h c (by simp [hc])
      simpa [Utf8, utf8Run, Utf8State.start, hb] using hrest

/-- A JSON value. Object members keep their order; `real m e` stands for `m * 10 ^ e`. -/
inductive Json where
  | null
  | bool (value : Bool)
  | int (value : Int)
  | real (mantissa exponent : Int)
  | str (text : Bytes)
  | arr (items : List Json)
  | obj (members : List (Bytes × Json))

namespace Json

/-! ## Lexical elements -/

/-- Space, tab, line feed, carriage return. -/
def isWs (b : UInt8) : Bool :=
  b = 32 || b = 9 || b = 10 || b = 13

/-- `ws`: a run of white space. -/
def Ws (t : Bytes) : Prop :=
  ∀ b ∈ t, isWs b = true

/-- The octet after a backslash that stands for a single octet. -/
def shortEscape (e : UInt8) : Option UInt8 :=
  if e = 34 then some 34
  else if e = 92 then some 92
  else if e = 47 then some 47
  else if e = 98 then some 8
  else if e = 102 then some 12
  else if e = 110 then some 10
  else if e = 114 then some 13
  else if e = 116 then some 9
  else none

/-- The number a hexadecimal digit of either case stands for. -/
def hexValue (b : UInt8) : Option Nat :=
  if 48 ≤ b ∧ b ≤ 57 then some (b.toNat - 48)
  else if 97 ≤ b ∧ b ≤ 102 then some (b.toNat - 87)
  else if 65 ≤ b ∧ b ≤ 70 then some (b.toNat - 55)
  else none

/-- The code unit four hexadecimal digits stand for. -/
def hex4 (a b c d : UInt8) : Option Nat := do
  let a ← hexValue a
  let b ← hexValue b
  let c ← hexValue c
  let d ← hexValue d
  pure (((a * 16 + b) * 16 + c) * 16 + d)

/-- The UTF-8 octets of a code point. -/
def utf8Encode (u : Nat) : Bytes :=
  if u < 0x80 then [UInt8.ofNat u]
  else if u < 0x800 then [UInt8.ofNat (0xC0 + u / 64), UInt8.ofNat (0x80 + u % 64)]
  else if u < 0x10000 then
    [UInt8.ofNat (0xE0 + u / 4096), UInt8.ofNat (0x80 + u / 64 % 64), UInt8.ofNat (0x80 + u % 64)]
  else
    [UInt8.ofNat (0xF0 + u / 262144), UInt8.ofNat (0x80 + u / 4096 % 64),
      UInt8.ofNat (0x80 + u / 64 % 64), UInt8.ofNat (0x80 + u % 64)]

/-- The first half of a surrogate pair. -/
def isHighSurrogate (u : Nat) : Bool :=
  0xD800 ≤ u && u < 0xDC00

/-- The second half of a surrogate pair. -/
def isLowSurrogate (u : Nat) : Bool :=
  0xDC00 ≤ u && u < 0xE000

/-- The code point of a surrogate pair. -/
def surrogatePair (high low : Nat) : Nat :=
  0x10000 + (high - 0xD800) * 0x400 + (low - 0xDC00)

/-- A number literal from its parts: sign, integer digits, fraction digits and signed exponent. -/
def numberValue (negative : Bool) (digits : Bytes) (frac : Option Bytes)
    (exp : Option (Bool × Bytes)) : Json :=
  let mantissa : Int := decimalValue (digits ++ frac.getD [])
  let signed := if negative then -mantissa else mantissa
  match frac, exp with
  | none, none => .int signed
  | _, _ =>
      let shift : Int := (frac.getD []).length
      match exp with
      | none => .real signed (-shift)
      | some (expNegative, ds) =>
          .real signed ((if expNegative then -(decimalValue ds : Int) else decimalValue ds) - shift)

/-! ## The grammar -/

/-- `*char`: the octets between two quotation marks and the text they stand for. -/
inductive Chars : Bytes → Bytes → Prop where
  | nil : Chars [] []
  | plain {b : UInt8} {raw text : Bytes} :
      32 ≤ b → b ≠ 34 → b ≠ 92 → Chars raw text → Chars (b :: raw) (b :: text)
  | short {e b : UInt8} {raw text : Bytes} :
      shortEscape e = some b → Chars raw text → Chars (92 :: e :: raw) (b :: text)
  | unicode {a b c d : UInt8} {u : Nat} {raw text : Bytes} :
      hex4 a b c d = some u → isHighSurrogate u = false → isLowSurrogate u = false →
      Chars raw text → Chars (92 :: 117 :: a :: b :: c :: d :: raw) (utf8Encode u ++ text)
  | pair {a b c d a' b' c' d' : UInt8} {u v : Nat} {raw text : Bytes} :
      hex4 a b c d = some u → isHighSurrogate u = true →
      hex4 a' b' c' d' = some v → isLowSurrogate v = true → Chars raw text →
      Chars (92 :: 117 :: a :: b :: c :: d :: 92 :: 117 :: a' :: b' :: c' :: d' :: raw)
        (utf8Encode (surrogatePair u v) ++ text)

/-- One or more digits. -/
def Digits (ds : Bytes) : Prop :=
  ds ≠ [] ∧ ∀ b ∈ ds, isDigit b = true

/-- `int = zero / ( digit1-9 *DIGIT )` -/
def IntDigits (ds : Bytes) : Prop :=
  Digits ds ∧ (ds = [48] ∨ ds.head? ≠ some 48)

/-- The sign of an exponent: none, `+` or `-`. -/
inductive ExpSign : Bytes → Bool → Prop where
  | none : ExpSign [] false
  | plus : ExpSign [43] false
  | minus : ExpSign [45] true

/-- `frac`, or nothing. -/
inductive Frac : Bytes → Option Bytes → Prop where
  | none : Frac [] none
  | some {ds : Bytes} : Digits ds → Frac (46 :: ds) (some ds)

/-- `exp`, or nothing. -/
inductive Exp : Bytes → Option (Bool × Bytes) → Prop where
  | none : Exp [] none
  | some {e : UInt8} {sign ds : Bytes} {negative : Bool} :
      e = 101 ∨ e = 69 → ExpSign sign negative → Digits ds →
      Exp (e :: (sign ++ ds)) (some (negative, ds))

/-- `number = [ minus ] int [ frac ] [ exp ]` -/
inductive Number : Bytes → Json → Prop where
  | mk (negative : Bool) {ds ft et : Bytes} {frac : Option Bytes} {exp : Option (Bool × Bytes)} :
      IntDigits ds → Frac ft frac → Exp et exp →
      Number ((if negative then [45] else []) ++ (ds ++ (ft ++ et)))
        (numberValue negative ds frac exp)

mutual
/-- `value`, without the white space around it. -/
inductive Value : Bytes → Json → Prop where
  | litNull : Value (ascii "null") .null
  | litTrue : Value (ascii "true") (.bool true)
  | litFalse : Value (ascii "false") (.bool false)
  | number {t : Bytes} {v : Json} : Number t v → Value t v
  | string {raw text : Bytes} :
      Chars raw text → Utf8 text → Value (34 :: (raw ++ [34])) (.str text)
  | arrEmpty {w : Bytes} : Ws w → Value (91 :: (w ++ [93])) (.arr [])
  | arr {t : Bytes} {vs : List Json} : Elements t vs → Value (91 :: t) (.arr vs)
  | objEmpty {w : Bytes} : Ws w → Value (123 :: (w ++ [125])) (.obj [])
  | obj {t : Bytes} {ms : List (Bytes × Json)} : Members t ms → Value (123 :: t) (.obj ms)

/-- The rest of a nonempty array, up to and including the closing bracket. -/
inductive Elements : Bytes → List Json → Prop where
  | last {w t w' : Bytes} {v : Json} :
      Ws w → Value t v → Ws w' → Elements (w ++ (t ++ (w' ++ [93]))) [v]
  | cons {w t w' rest : Bytes} {v : Json} {vs : List Json} :
      Ws w → Value t v → Ws w' → Elements rest vs →
      Elements (w ++ (t ++ (w' ++ 44 :: rest))) (v :: vs)

/-- The rest of a nonempty object, up to and including the closing brace. -/
inductive Members : Bytes → List (Bytes × Json) → Prop where
  | last {w raw key w₁ w₂ t w₃ : Bytes} {v : Json} :
      Ws w → Chars raw key → Utf8 key → Ws w₁ → Ws w₂ → Value t v → Ws w₃ →
      Members (w ++ 34 :: (raw ++ 34 :: (w₁ ++ 58 :: (w₂ ++ (t ++ (w₃ ++ [125]))))))
        [(key, v)]
  | cons {w raw key w₁ w₂ t w₃ rest : Bytes} {v : Json} {ms : List (Bytes × Json)} :
      Ws w → Chars raw key → Utf8 key → Ws w₁ → Ws w₂ → Value t v → Ws w₃ → Members rest ms →
      Members (w ++ 34 :: (raw ++ 34 :: (w₁ ++ 58 :: (w₂ ++ (t ++ (w₃ ++ 44 :: rest))))))
        ((key, v) :: ms)
end

/-- `JSON-text = ws value ws` -/
inductive Text : Bytes → Json → Prop where
  | mk {w t w' : Bytes} {v : Json} : Ws w → Value t v → Ws w' → Text (w ++ (t ++ w')) v

/-! ## The decoder -/

/-- Skip white space. -/
def skipWs (s : Bytes) : Bytes :=
  s.dropWhile isWs

/-- Take a fixed word off the front. -/
def word : Bytes → Bytes → Option Bytes
  | [], s => some s
  | b :: w, c :: s => if b = c then word w s else none
  | _ :: _, [] => none

/-- What stands after a backslash, as the octets it denotes. -/
def unescape : Bytes → Option (Bytes × Bytes)
  | [] => none
  | e :: s =>
      match shortEscape e with
      | some b => some ([b], s)
      | none =>
          if e = 117 then
            match s with
            | a :: b :: c :: d :: s => do
                let u ← hex4 a b c d
                if isHighSurrogate u then
                  match s with
                  | 92 :: 117 :: a :: b :: c :: d :: s => do
                      let v ← hex4 a b c d
                      if isLowSurrogate v then some (utf8Encode (surrogatePair u v), s) else none
                  | _ => none
                else if isLowSurrogate u then none
                else some (utf8Encode u, s)
            | _ => none
          else none

/-- The characters of a string up to the closing quotation mark. -/
def chars : Nat → Bytes → Option (Bytes × Bytes)
  | 0, _ => none
  | _ + 1, [] => none
  | fuel + 1, b :: s =>
      if b = 34 then some ([], s)
      else if b = 92 then do
        let (x, s) ← unescape s
        let (text, s) ← chars fuel s
        some (x ++ text, s)
      else if b < 32 then none
      else do
        let (text, s) ← chars fuel s
        some (b :: text, s)

/-- A string after its opening quotation mark. -/
def string (s : Bytes) : Option (Bytes × Bytes) := do
  let (text, s) ← chars (s.length + 1) s
  if Utf8 text then some (text, s) else none

/-- One or more digits. -/
def digits (s : Bytes) : Option (Bytes × Bytes) :=
  let ds := s.takeWhile isDigit
  if ds = [] then none else some (ds, s.dropWhile isDigit)

/-- A fraction, if one follows. -/
def fraction : Bytes → Option (Option Bytes × Bytes)
  | [] => some (none, [])
  | b :: s =>
      if b = 46 then do
        let (ds, s) ← digits s
        some (some ds, s)
      else some (none, b :: s)

/-- The sign of an exponent. -/
def expSign : Bytes → Bool × Bytes
  | [] => (false, [])
  | b :: s => if b = 45 then (true, s) else if b = 43 then (false, s) else (false, b :: s)

/-- An exponent, if one follows. -/
def exponent : Bytes → Option (Option (Bool × Bytes) × Bytes)
  | [] => some (none, [])
  | b :: s =>
      if b = 101 ∨ b = 69 then do
        let (negative, s) := expSign s
        let (ds, s) ← digits s
        some (some (negative, ds), s)
      else some (none, b :: s)

/-- A number after its optional minus sign. -/
def unsignedNumber (negative : Bool) (s : Bytes) : Option (Json × Bytes) := do
  let (ds, s) ← digits s
  if ds ≠ [48] ∧ ds.head? = some 48 then none
  else do
    let (frac, s) ← fraction s
    let (exp, s) ← exponent s
    some (numberValue negative ds frac exp, s)

/-- A number. -/
def number : Bytes → Option (Json × Bytes)
  | [] => none
  | b :: s => if b = 45 then unsignedNumber true s else unsignedNumber false (b :: s)

mutual
/-- A value that starts at the front of the text. -/
def value : Nat → Bytes → Option (Json × Bytes)
  | 0, _ => none
  | _ + 1, [] => none
  | fuel + 1, b :: s =>
      if b = 34 then do
        let (text, s) ← string s
        some (.str text, s)
      else if b = 91 then
        match skipWs s with
        | [] => none
        | c :: s => if c = 93 then some (.arr [], s) else do
            let (vs, s) ← elements fuel (c :: s)
            some (.arr vs, s)
      else if b = 123 then
        match skipWs s with
        | [] => none
        | c :: s => if c = 125 then some (.obj [], s) else do
            let (ms, s) ← members fuel (c :: s)
            some (.obj ms, s)
      else if b = 110 then do
        let s ← word (ascii "ull") s
        some (.null, s)
      else if b = 116 then do
        let s ← word (ascii "rue") s
        some (.bool true, s)
      else if b = 102 then do
        let s ← word (ascii "alse") s
        some (.bool false, s)
      else number (b :: s)

/-- The rest of a nonempty array. -/
def elements : Nat → Bytes → Option (List Json × Bytes)
  | 0, _ => none
  | fuel + 1, s => do
      let (v, s) ← value fuel (skipWs s)
      match skipWs s with
      | [] => none
      | c :: s =>
          if c = 93 then some ([v], s)
          else if c = 44 then do
            let (vs, s) ← elements fuel s
            some (v :: vs, s)
          else none

/-- The rest of a nonempty object. -/
def members : Nat → Bytes → Option (List (Bytes × Json) × Bytes)
  | 0, _ => none
  | fuel + 1, s => do
      let s ← word [34] (skipWs s)
      let (key, s) ← string s
      let s ← word [58] (skipWs s)
      let (v, s) ← value fuel (skipWs s)
      match skipWs s with
      | [] => none
      | c :: s =>
          if c = 125 then some ([(key, v)], s)
          else if c = 44 then do
            let (ms, s) ← members fuel s
            some ((key, v) :: ms, s)
          else none
end

/-- Decode a whole text. Two units of fuel per octet cover every nesting. -/
def decode (s : Bytes) : Option Json := do
  let (v, s) ← value (2 * s.length + 2) (skipWs s)
  if skipWs s = [] then some v else none

end Json

end Wire
