import Gnostr.Wire.Bytes
import Gnostr.Wire.Delimited

/-!
# Hexadecimal text

`include/hex.h`: `hex_encode` writes two lower case digits per byte and a terminator,
`hex_decode` reads digits of either case into a buffer of a given size. `hexText` is the text
`hex_encode` produces, without the terminator; it has two octets per byte and is injective.
`hex_codec_laws` says which texts are accepted and how the two functions undo each other.
-/

namespace Gnostr

open Wire

/-- `char_to_hex`. -/
def charToHex (c : UInt8) : Option UInt8 :=
  if 48 ≤ c ∧ c ≤ 57 then some (c - 48)
  else if 97 ≤ c ∧ c ≤ 102 then some (c - 97 + 10)
  else if 65 ≤ c ∧ c ≤ 70 then some (c - 65 + 10)
  else none

/-- `hex_decode`: whether the text was accepted, and the bytes stored into the buffer. -/
def hexDecode : Bytes → Nat → Bool × Bytes
  | a :: b :: str, bufsize =>
      match charToHex a, charToHex b with
      | some v1, some v2 =>
          match bufsize with
          | 0 => (false, [])
          | bufsize + 1 =>
              let (ok, stored) := hexDecode str bufsize
              (ok, (v1 <<< 4 ||| v2) :: stored)
      | _, _ => (false, [])
  | [_], _ => (false, [])
  | [], bufsize => (bufsize == 0, [])

/-- `hex_str_size`. -/
def hexStrSize (bytes : Nat) : Nat :=
  2 * bytes + 1

/-- `hexchar`. -/
def hexchar (val : UInt8) : UInt8 :=
  if val < 10 then 48 + val else 97 + val - 10

/-- The two digits of a byte. -/
def hexByte (c : UInt8) : Bytes :=
  [hexchar (c >>> 4), hexchar (c &&& 0xF)]

/-- The digits of a byte string. -/
def hexText (buf : Bytes) : Bytes :=
  buf.flatMap hexByte

/-- `hex_encode`: the octets stored at `dest`, terminator included, or nothing when `dest` is
too small. -/
def hexEncode (buf : Bytes) (destsize : Nat) : Option Bytes :=
  if destsize < hexStrSize buf.length then none else some (hexText buf ++ [0])

/-! ## The text -/

/-- Decoding the two digits of a byte gives the byte. -/
theorem hex_decode_hex_byte (c : UInt8) :
    charToHex (hexchar (c >>> 4)) = some (c >>> 4) ∧
      charToHex (hexchar (c &&& 0xF)) = some (c &&& 0xF) ∧ c >>> 4 <<< 4 ||| c &&& 0xF = c := by
  have hcode : ∀ n : Fin 256,
      charToHex (hexchar (UInt8.ofNat n >>> 4)) = some (UInt8.ofNat n >>> 4) ∧
      charToHex (hexchar (UInt8.ofNat n &&& 0xF)) = some (UInt8.ofNat n &&& 0xF) ∧
      UInt8.ofNat n >>> 4 <<< 4 ||| UInt8.ofNat n &&& 0xF = UInt8.ofNat n := by decide +kernel
  simpa using hcode ⟨c.toNat, c.toNat_lt⟩

/-- Different bytes have different digits. -/
theorem hex_byte_injective (c d : UInt8) (h : hexByte c = hexByte d) : c = d := by
  obtain ⟨hhigh, hlow, hc⟩ := hex_decode_hex_byte c
  obtain ⟨hhigh', hlow', hd⟩ := hex_decode_hex_byte d
  simp only [hexByte, List.cons.injEq, and_true] at h
  rw [h.1, hhigh', Option.some.injEq] at hhigh
  rw [h.2, hlow', Option.some.injEq] at hlow
  rw [← hc, ← hd, hhigh, hlow]

/-- Hexadecimal digits are printable ASCII and none of the structural octets. -/
theorem hexchar_range {v : UInt8} (h : v < 16) :
    48 ≤ hexchar v ∧ hexchar v ≤ 102 ∧ hexchar v ≠ 92 := by
  have hrange : ∀ n : Fin 16, 48 ≤ hexchar (UInt8.ofNat n) ∧ hexchar (UInt8.ofNat n) ≤ 102 ∧
      hexchar (UInt8.ofNat n) ≠ 92 := by decide +kernel
  simpa using hrange ⟨v.toNat, UInt8.lt_iff_toNat_lt.mp h⟩

/-- The digits are printable and no backslash. -/
theorem hex_byte_range (c : UInt8) : ∀ b ∈ hexByte c, 48 ≤ b ∧ b ≤ 102 ∧ b ≠ 92 := by
  have hnibbles : ∀ n : Fin 256, UInt8.ofNat n >>> 4 < 16 ∧ UInt8.ofNat n &&& 0xF < 16 := by
    decide +kernel
  have hc : c >>> 4 < 16 ∧ c &&& 0xF < 16 := by simpa using hnibbles ⟨c.toNat, c.toNat_lt⟩
  intro b hb
  simp only [hexByte, List.mem_cons, List.not_mem_nil, or_false] at hb
  rcases hb with rfl | rfl
  · exact hexchar_range hc.1
  · exact hexchar_range hc.2

/-- Every byte has two digits. -/
theorem length_hex_text (buf : Bytes) : (hexText buf).length = 2 * buf.length := by
  induction buf with
  | nil => rfl
  | cons c buf ih =>
      simp only [hexText, List.flatMap_cons, List.length_append] at ih ⊢
      rw [ih]
      simp [hexByte]
      omega

/-- All digits of a text are printable and no backslash. -/
theorem mem_hex_text {buf : Bytes} {b : UInt8} (h : b ∈ hexText buf) :
    48 ≤ b ∧ b ≤ 102 ∧ b ≠ 92 := by
  obtain ⟨c, -, hb⟩ := List.mem_flatMap.mp h
  exact hex_byte_range c b hb

/-- The digits of a fixed number of bytes can be read back whatever follows them. -/
theorem delimited_hex_text (n : Nat) : Delimited fun b : Block n => hexText b.1 := by
  refine delimited_of_length (n := 2 * n) ?_ fun b => by rw [length_hex_text, b.2]
  have hinj : ∀ s t : Bytes, hexText s = hexText t → s = t := by
    intro s
    induction s with
    | nil =>
        intro t h
        have hlen := congrArg List.length h
        rw [length_hex_text, length_hex_text, List.length_nil] at hlen
        exact (List.length_eq_zero_iff.mp (by omega)).symm
    | cons c s ih =>
        intro t h
        cases t with
        | nil => simp [hexText, hexByte] at h
        | cons d t =>
            simp only [hexText, List.flatMap_cons] at h
            obtain ⟨hcd, hst⟩ := List.append_inj h rfl
            rw [hex_byte_injective c d hcd, ih t hst]
  exact fun s t h => Subtype.ext (hinj s.1 t.1 h)

/-- With room for the terminator, encoding succeeds. -/
theorem hex_encode_eq {buf : Bytes} {destsize : Nat} (h : 2 * buf.length + 1 ≤ destsize) :
    hexEncode buf destsize = some (hexText buf ++ [0]) :=
  if_neg (by unfold hexStrSize; omega)

/-! ## Laws -/

/-- A hexadecimal digit of either case. -/
def isHexDigit (c : UInt8) : Bool :=
  c ∈ ascii "0123456789abcdefABCDEF"

/-- A letter in lower case. -/
def toLower (c : UInt8) : UInt8 :=
  if 65 ≤ c ∧ c ≤ 90 then c + 32 else c

/-- `char_to_hex` accepts the digits of either case, and the digit of its value is the one in lower
case. -/
theorem char_to_hex_cases (c : UInt8) :
    (isHexDigit c = false ∧ charToHex c = none) ∨
      (isHexDigit c = true ∧ ∃ v, charToHex c = some v ∧ v < 16 ∧ hexchar v = toLower c) := by
  have hcases : ∀ n : Fin 256,
      if isHexDigit (UInt8.ofNat n) then
        ∃ v : Fin 16, charToHex (UInt8.ofNat n) = some (UInt8.ofNat v) ∧
          hexchar (UInt8.ofNat v) = toLower (UInt8.ofNat n)
      else charToHex (UInt8.ofNat n) = none := by decide +kernel
  have hc := hcases ⟨c.toNat, c.toNat_lt⟩
  simp only [UInt8.ofNat_toNat] at hc
  split at hc
  · next hdigit =>
    obtain ⟨v, hv, hlower⟩ := hc
    refine .inr ⟨hdigit, _, hv, ?_, hlower⟩
    rw [UInt8.lt_iff_toNat_lt, UInt8.toNat_ofNat']
    exact (Nat.mod_le _ _).trans_lt v.2
  · next hdigit => exact .inl ⟨by simpa using hdigit, hc⟩

/-- The two halves of a byte put together from two digits. -/
theorem hex_byte_of_halves {v1 v2 : UInt8} (h1 : v1 < 16) (h2 : v2 < 16) :
    hexByte (v1 <<< 4 ||| v2) = [hexchar v1, hexchar v2] := by
  have hhalves : ∀ m n : Fin 16,
      hexByte (UInt8.ofNat m <<< 4 ||| UInt8.ofNat n) =
        [hexchar (UInt8.ofNat m), hexchar (UInt8.ofNat n)] := by decide +kernel
  simpa using hhalves ⟨v1.toNat, UInt8.lt_iff_toNat_lt.mp h1⟩
    ⟨v2.toNat, UInt8.lt_iff_toNat_lt.mp h2⟩

/-- Never more octets are stored than there is room for. -/
theorem length_hex_decode_le (str : Bytes) (bufsize : Nat) :
    (hexDecode str bufsize).2.length ≤ bufsize := by
  fun_induction hexDecode str bufsize <;> simp_all

/-- What is read as a digit is one, and is written back in lower case. -/
theorem is_hex_digit_of_some {c v : UInt8} (h : charToHex c = some v) :
    isHexDigit c = true ∧ v < 16 ∧ hexchar v = toLower c := by
  rcases char_to_hex_cases c with ⟨-, hnone⟩ | ⟨hdigit, w, hw, hlt, hlower⟩
  · rw [hnone] at h
    cases h
  · obtain rfl := Option.some.inj (hw.symm.trans h)
    exact ⟨hdigit, hlt, hlower⟩

/-- A text is accepted exactly if it consists of two digits for every byte of the buffer. -/
theorem hex_decode_iff (str : Bytes) (bufsize : Nat) :
    (hexDecode str bufsize).1 = true ↔
      str.length = 2 * bufsize ∧ ∀ c ∈ str, isHexDigit c = true := by
  fun_induction hexDecode str bufsize with
  -- the buffer is full
  | case1 a b str v1 v2 hb ha => exact iff_of_false (by decide) fun h => by simp at h
  | case2 a b str v1 v2 hb ha bufsize ok stored hrest ih =>
      rw [hrest] at ih
      rw [List.forall_mem_cons, List.forall_mem_cons, and_iff_right (is_hex_digit_of_some ha).1,
        and_iff_right (is_hex_digit_of_some hb).1]
      refine ih.trans (and_congr_left fun _ => ?_)
      simp only [List.length_cons]
      omega
  -- one of the two characters is no digit
  | case3 a b str bufsize hnone =>
      refine iff_of_false (by decide) fun h => ?_
      have ha := h.2 a List.mem_cons_self
      have hb := h.2 b (List.mem_cons_of_mem _ List.mem_cons_self)
      rcases char_to_hex_cases a with ⟨hno, -⟩ | ⟨-, v1, hv1, -⟩
      · rw [hno] at ha
        cases ha
      · rcases char_to_hex_cases b with ⟨hno, -⟩ | ⟨-, v2, hv2, -⟩
        · rw [hno] at hb
          cases hb
        · exact hnone v1 v2 hv1 hv2
  | case4 a bufsize =>
      refine iff_of_false (by decide) fun h => ?_
      have hlength := h.1
      rw [List.length_singleton] at hlength
      omega
  | case5 bufsize =>
      rw [List.length_nil, and_iff_left fun c hc => absurd hc List.not_mem_nil, beq_iff_eq]
      omega

/-- The digits of what was decoded are those of the text, in lower case. -/
theorem hex_text_hex_decode {str : Bytes} {bufsize : Nat} (h : (hexDecode str bufsize).1 = true) :
    hexText (hexDecode str bufsize).2 = str.map toLower := by
  fun_induction hexDecode str bufsize with
  | case1 => cases h
  | case2 a b str v1 v2 hb ha bufsize ok stored hrest ih =>
      obtain ⟨-, h1, hlower1⟩ := is_hex_digit_of_some ha
      obtain ⟨-, h2, hlower2⟩ := is_hex_digit_of_some hb
      rw [hrest] at ih
      rw [hexText, List.flatMap_cons, hex_byte_of_halves h1 h2, ← hexText, ih h, hlower1, hlower2]
      rfl
  | case3 => cases h
  | case4 => cases h
  | case5 => rfl

/-- Decoding the digits of a byte string gives the byte string. -/
theorem hex_decode_hex_text (buf : Bytes) : hexDecode (hexText buf) buf.length = (true, buf) := by
  induction buf with
  | nil => rfl
  | cons c buf ih =>
      obtain ⟨hhigh, hlow, hc⟩ := hex_decode_hex_byte c
      show hexDecode (hexchar (c >>> 4) :: hexchar (c &&& 0xF) :: hexText buf) _ = _
      simp only [hexDecode, hhigh, hlow, List.length_cons, ih, hc]

/-- The two functions are inverse to each other up to the case of the digits: what is encoded is
decoded, and what is decoded is encoded in lower case. Exactly the texts of two digits for every
byte of the buffer are accepted, and no text makes `hex_decode` store more than fits. -/
theorem hex_codec_laws (b s : Bytes) (destsize n : Nat) (hdest : 2 * b.length + 1 ≤ destsize) :
    (∃ dest, hexEncode b destsize = some dest ∧
      hexDecode (CStr.ofBytes dest).bytes b.length = (true, b)) ∧
    ((hexDecode s n).1 = true ↔ s.length = 2 * n ∧ ∀ c ∈ s, isHexDigit c = true) ∧
    ((hexDecode s n).1 = true →
      hexEncode (hexDecode s n).2 (hexStrSize n) = some (s.map toLower ++ [0])) ∧
    (hexDecode s n).2.length ≤ n := by
  refine ⟨⟨_, hex_encode_eq hdest, ?_⟩, hex_decode_iff s n, fun h => ?_, length_hex_decode_le s n⟩
  · have hfree : 0 ∉ hexText b := fun hmem => absurd (mem_hex_text hmem).1 (by decide)
    rw [CStr.bytes_of_terminated hfree]
    exact hex_decode_hex_text b
  · have hlength := length_hex_decode_le s n
    rw [hex_encode_eq (by unfold hexStrSize; omega), hex_text_hex_decode h]

/-- A text with digits of both cases. -/
theorem hex_codec_laws_mixed :
    hexEncode (hexDecode (ascii "0aFf") 2).2 (hexStrSize 2) = some (ascii "0aff" ++ [0]) :=
  (hex_codec_laws [] (ascii "0aFf") 1 2 (by decide)).2.2.1 (by decide)

end Gnostr
