import Gnostr.Wire.Bytes

/-!
# Base64

`base64.c`: the encoder writes groups of three bytes as four letters, pads the last group with
`=`, and fills the rest of its buffer with zeros. The decoder reads all but the last group with
`base64_decode_quartet` and the last one with `base64_decode_tail`. `base64_decode_encode` says
that decoding what was encoded gives the bytes back.
-/

namespace Gnostr

open Wire

/-- The letters, by the six bits they stand for. -/
def base64Alphabet : Bytes :=
  ascii "ABCDEFGHIJKLMNOPQRSTUVWXYZabcdefghijklmnopqrstuvwxyz0123456789+/"

/-- `sixbit_to_b64`. -/
def sixbitToB64 (sixbit : UInt8) : UInt8 :=
  base64Alphabet.getD sixbit.toNat 0

/-- `sixbit_from_b64`: the decode map holds the position of every letter and `0xff` elsewhere. -/
def sixbitFromB64 (b64letter : UInt8) : Option UInt8 :=
  (base64Alphabet.idxOf? b64letter).map UInt8.ofNat

/-- `base64_encoded_length`. -/
def base64EncodedLength (srclen : Nat) : Nat :=
  (srclen + 2) / 3 * 4

/-- `base64_encode_triplet`. -/
def base64EncodeTriplet (a b c : UInt8) : Bytes :=
  [sixbitToB64 ((a &&& 0xfc) >>> 2),
    sixbitToB64 (((a &&& 0x3) <<< 4) ||| ((b &&& 0xf0) >>> 4)),
    sixbitToB64 (((c &&& 0xc0) >>> 6) ||| ((b &&& 0xf) <<< 2)),
    sixbitToB64 (c &&& 0x3f)]

/-- `base64_encode_tail`. -/
def base64EncodeTail (src : Bytes) : Bytes :=
  (base64EncodeTriplet (src.getD 0 0) (src.getD 1 0) (src.getD 2 0)).take (1 + src.length) ++
    List.replicate (3 - src.length) 61

/-- The letters of a byte string: a triplet while three bytes are left, then the tail. -/
def base64Text : Bytes → Bytes
  | [] => []
  | [a] => base64EncodeTail [a]
  | [a, b] => base64EncodeTail [a, b]
  | a :: b :: c :: src => base64EncodeTriplet a b c ++ base64Text src

/-- `base64_encode`: the number of letters and the whole buffer, or nothing when it is too
small. -/
def base64Encode (destlen : Nat) (src : Bytes) : Option (Nat × Bytes) :=
  if destlen < base64EncodedLength src.length then none
  else
    let text := base64Text src
    some (text.length, text ++ List.replicate (destlen - text.length) 0)

/-- `base64_decode_quartet`. -/
def base64DecodeQuartet (a b c d : UInt8) : Option Bytes := do
  let a ← sixbitFromB64 a
  let b ← sixbitFromB64 b
  let c ← sixbitFromB64 c
  let d ← sixbitFromB64 d
  some [(a <<< 2) ||| (b >>> 4), ((b &&& 0xf) <<< 4) ||| (c >>> 2), ((c &&& 0x3) <<< 6) ||| d]

/-- `base64_decode_tail`: padding is thrown away, and what is missing of four letters counts as
`A`. -/
def base64DecodeTail (src : Bytes) : Option Bytes :=
  match src.rdropWhile (· = 61) with
  | [] => some []
  | [_] => none
  | a :: b :: rest =>
      (base64DecodeQuartet a b (rest.getD 0 65) (rest.getD 1 65)).map fun out =>
        out.take (1 + rest.length)

/-- The bytes of a text: a group of four while more than four letters are left. -/
def base64Bytes : Bytes → Option Bytes
  | a :: b :: c :: d :: e :: src => do
      let out ← base64DecodeQuartet a b c d
      let rest ← base64Bytes (e :: src)
      some (out ++ rest)
  | src => base64DecodeTail src

/-- `base64_decoded_length`. -/
def base64DecodedLength (srclen : Nat) : Nat :=
  (srclen + 3) / 4 * 3

/-- `base64_decode`: the bytes, or nothing when the buffer is too small or the text is no
base64. -/
def base64Decode (destlen : Nat) (src : Bytes) : Option Bytes :=
  if destlen < base64DecodedLength src.length then none else base64Bytes src

/-! ## Six bits at a time -/

/-- A property of all bytes below a bound can be checked number by number. -/
theorem forall_byte_lt {n : Nat} {P : UInt8 → Prop} (h : ∀ i : Fin n, P (UInt8.ofNat i))
    (b : UInt8) (hb : b.toNat < n) : P b := by
  simpa using h ⟨b.toNat, hb⟩

/-- What holds of 256 bytes holds of all. -/
theorem forall_byte {P : UInt8 → Prop} (h : ∀ i : Fin 256, P (UInt8.ofNat i)) (b : UInt8) : P b :=
  forall_byte_lt h b b.toNat_lt

/-- Every letter stands for the six bits it was chosen by. -/
theorem sixbit_from_to {v : UInt8} (h : v.toNat < 64) :
    sixbitFromB64 (sixbitToB64 v) = some v :=
  forall_byte_lt (P := fun v => sixbitFromB64 (sixbitToB64 v) = some v) (by decide +kernel) v h

/-- No letter is a padding sign, a question mark or a terminator. -/
theorem sixbit_to_b64_ne {v : UInt8} (h : v.toNat < 64) :
    sixbitToB64 v ≠ 61 ∧ sixbitToB64 v ≠ 63 ∧ sixbitToB64 v ≠ 0 :=
  forall_byte_lt (P := fun v => sixbitToB64 v ≠ 61 ∧ sixbitToB64 v ≠ 63 ∧ sixbitToB64 v ≠ 0)
    (by decide +kernel) v h

/-- The pieces a byte is cut into: six and two bits, four and four, two and six. -/
theorem pieces (a : UInt8) :
    ((a &&& 0xfc) >>> 2).toNat < 64 ∧ (a &&& 0x3).toNat < 4 ∧ ((a &&& 0xf0) >>> 4).toNat < 16 ∧
      (a &&& 0xf).toNat < 16 ∧ ((a &&& 0xc0) >>> 6).toNat < 4 ∧ (a &&& 0x3f).toNat < 64 :=
  forall_byte (P := fun a => ((a &&& 0xfc) >>> 2).toNat < 64 ∧ (a &&& 0x3).toNat < 4 ∧
    ((a &&& 0xf0) >>> 4).toNat < 16 ∧ (a &&& 0xf).toNat < 16 ∧ ((a &&& 0xc0) >>> 6).toNat < 4 ∧
    (a &&& 0x3f).toNat < 64) (by decide +kernel) a

/-- Putting the pieces of a byte together again. -/
theorem join_pieces (a : UInt8) :
    ((a &&& 0xfc) >>> 2) <<< 2 ||| (a &&& 0x3) = a ∧
      ((a &&& 0xf0) >>> 4) <<< 4 ||| (a &&& 0xf) = a ∧
      ((a &&& 0xc0) >>> 6) <<< 6 ||| (a &&& 0x3f) = a :=
  forall_byte (P := fun a => ((a &&& 0xfc) >>> 2) <<< 2 ||| (a &&& 0x3) = a ∧
    ((a &&& 0xf0) >>> 4) <<< 4 ||| (a &&& 0xf) = a ∧
    ((a &&& 0xc0) >>> 6) <<< 6 ||| (a &&& 0x3f) = a) (by decide +kernel) a

/-- The second and the third letter hold a piece of two bytes each. -/
theorem second_letter {p q : UInt8} (hp : p.toNat < 4) (hq : q.toNat < 16) :
    ((p <<< 4) ||| q).toNat < 64 ∧ ((p <<< 4) ||| q) >>> 4 = p ∧ ((p <<< 4) ||| q) &&& 0xf = q := by
  have hall : ∀ (i : Fin 4) (j : Fin 16),
      ((UInt8.ofNat i <<< 4) ||| UInt8.ofNat j).toNat < 64 ∧
      ((UInt8.ofNat i <<< 4) ||| UInt8.ofNat j) >>> 4 = UInt8.ofNat i ∧
      ((UInt8.ofNat i <<< 4) ||| UInt8.ofNat j) &&& 0xf = UInt8.ofNat j := by decide +kernel
  simpa using hall ⟨p.toNat, hp⟩ ⟨q.toNat, hq⟩

/-- The letter that takes two bits of one byte and four of the next gives both back. -/
theorem third_letter {s r : UInt8} (hs : s.toNat < 4) (hr : r.toNat < 16) :
    (s ||| (r <<< 2)).toNat < 64 ∧ (s ||| (r <<< 2)) >>> 2 = r ∧ (s ||| (r <<< 2)) &&& 0x3 = s := by
  have hall : ∀ (i : Fin 4) (j : Fin 16),
      (UInt8.ofNat i ||| (UInt8.ofNat j <<< 2)).toNat < 64 ∧
      (UInt8.ofNat i ||| (UInt8.ofNat j <<< 2)) >>> 2 = UInt8.ofNat j ∧
      (UInt8.ofNat i ||| (UInt8.ofNat j <<< 2)) &&& 0x3 = UInt8.ofNat i := by decide +kernel
  simpa using hall ⟨s.toNat, hs⟩ ⟨r.toNat, hr⟩

/-! ## Groups -/

/-- The four six-bit values of a group. -/
theorem triplet_values (a b c : UInt8) :
    ∃ u v w x : UInt8, base64EncodeTriplet a b c =
        [sixbitToB64 u, sixbitToB64 v, sixbitToB64 w, sixbitToB64 x] ∧
      (u.toNat < 64 ∧ v.toNat < 64 ∧ w.toNat < 64 ∧ x.toNat < 64) ∧
      (u <<< 2) ||| (v >>> 4) = a ∧ ((v &&& 0xf) <<< 4) ||| (w >>> 2) = b ∧
      ((w &&& 0x3) <<< 6) ||| x = c := by
  obtain ⟨hu, hp, -, -, -, -⟩ := pieces a
  obtain ⟨-, -, hq, hr, -, -⟩ := pieces b
  obtain ⟨-, -, -, -, hs, hx⟩ := pieces c
  obtain ⟨hv, hvp, hvq⟩ := second_letter hp hq
  obtain ⟨hw, hwr, hws⟩ := third_letter hs hr
  refine ⟨_, _, _, _, rfl, ⟨hu, hv, hw, hx⟩, ?_, ?_, ?_⟩
  · rw [hvp]
    exact (join_pieces a).1
  · rw [hvq, hwr]
    exact (join_pieces b).2.1
  · rw [hws]
    exact (join_pieces c).2.2

/-- Decoding the letters of four six-bit values joins the values. -/
theorem decode_quartet_letters {u v w x : UInt8} (hu : u.toNat < 64) (hv : v.toNat < 64)
    (hw : w.toNat < 64) (hx : x.toNat < 64) :
    base64DecodeQuartet (sixbitToB64 u) (sixbitToB64 v) (sixbitToB64 w) (sixbitToB64 x) =
      some [(u <<< 2) ||| (v >>> 4), ((v &&& 0xf) <<< 4) ||| (w >>> 2),
        ((w &&& 0x3) <<< 6) ||| x] := by
  simp [base64DecodeQuartet, sixbit_from_to hu, sixbit_from_to hv, sixbit_from_to hw,
    sixbit_from_to hx]

/-- `A` stands for zero. -/
theorem sixbit_to_b64_zero : sixbitToB64 0 = 65 := by decide

/-- The last group of one, two or three bytes is decoded to them. -/
theorem decode_tail_triplet (a b c : UInt8) :
    base64DecodeTail (base64EncodeTriplet a b c) = some [a, b, c] := by
  obtain ⟨u, v, w, x, htext, ⟨hu, hv, hw, hx⟩, ha, hb, hc⟩ := triplet_values a b c
  have hdrop : [sixbitToB64 u, sixbitToB64 v, sixbitToB64 w, sixbitToB64 x].rdropWhile (· = 61) =
      [sixbitToB64 u, sixbitToB64 v, sixbitToB64 w, sixbitToB64 x] := by
    simp [List.rdropWhile, (sixbit_to_b64_ne hx).1]
  simp [base64DecodeTail, htext, hdrop, decode_quartet_letters hu hv hw hx, ha, hb, hc]

/-- Two bytes at the end come back. -/
theorem decode_tail_two (a b : UInt8) :
    base64DecodeTail (base64EncodeTail [a, b]) = some [a, b] := by
  obtain ⟨u, v, w, x, htext, ⟨hu, hv, hw, hx⟩, ha, hb, hc⟩ := triplet_values a b 0
  have hdrop : [sixbitToB64 u, sixbitToB64 v, sixbitToB64 w, 61].rdropWhile (· = 61) =
      [sixbitToB64 u, sixbitToB64 v, sixbitToB64 w] := by
    simp [List.rdropWhile, (sixbit_to_b64_ne hw).1]
  have hzero := decode_quartet_letters hu hv hw (x := 0) (by decide)
  rw [sixbit_to_b64_zero] at hzero
  simp [base64EncodeTail, base64DecodeTail, htext, hdrop, hzero, ha, hb]

/-- A single byte at the end comes back. -/
theorem decode_tail_one (a : UInt8) :
    base64DecodeTail (base64EncodeTail [a]) = some [a] := by
  obtain ⟨u, v, w, x, htext, ⟨hu, hv, hw, hx⟩, ha, hb, hc⟩ := triplet_values a 0 0
  have hdrop : [sixbitToB64 u, sixbitToB64 v, 61, 61].rdropWhile (· = 61) =
      [sixbitToB64 u, sixbitToB64 v] := by
    simp [List.rdropWhile, (sixbit_to_b64_ne hv).1]
  have hzero := decode_quartet_letters hu hv (w := 0) (x := 0) (by decide) (by decide)
  rw [sixbit_to_b64_zero] at hzero
  simp [base64EncodeTail, base64DecodeTail, htext, hdrop, hzero, ha]

/-! ## Whole texts -/

/-- The text is as long as the function says. -/
theorem length_base64_text (src : Bytes) :
    (base64Text src).length = base64EncodedLength src.length := by
  induction src using base64Text.induct with
  | case1 => rfl
  | case2 a => simp [base64Text, base64EncodeTail, base64EncodeTriplet, base64EncodedLength]
  | case3 a b => simp [base64Text, base64EncodeTail, base64EncodeTriplet, base64EncodedLength]
  | case4 a b c src ih =>
      simp only [base64Text, List.length_append, ih, base64EncodedLength, List.length_cons]
      simp only [base64EncodeTriplet, List.length_cons, List.length_nil]
      omega

/-- Decoding what was encoded gives the bytes back. -/
theorem base64_bytes_text (src : Bytes) : base64Bytes (base64Text src) = some src := by
  induction src using base64Text.induct with
  | case1 => rfl
  | case2 a => exact decode_tail_one a
  | case3 a b => exact decode_tail_two a b
  | case4 a b c src ih =>
      obtain ⟨u, v, w, x, htext, ⟨hu, hv, hw, hx⟩, ha, hb, hc⟩ := triplet_values a b c
      cases hsrc : base64Text src with
      | nil =>
          -- this was the last group
          have hnil : src = [] := by
            have hlen := length_base64_text src
            rw [hsrc, List.length_nil, base64EncodedLength] at hlen
            exact List.length_eq_zero_iff.mp (by omega)
          have htail := decode_tail_triplet a b c
          subst hnil
          rw [htext] at htail
          simpa [base64Text, base64Bytes, htext] using htail
      | cons e rest =>
          rw [hsrc] at ih
          simp [base64Text, base64Bytes, htext, hsrc, decode_quartet_letters hu hv hw hx, ih, ha,
            hb, hc]

/-- With room for the groups, decoding what was encoded gives the bytes back. -/
theorem base64_decode_encode {src : Bytes} {destlen : Nat}
    (h : base64DecodedLength (base64Text src).length ≤ destlen) :
    base64Decode destlen (base64Text src) = some src := by
  rw [base64Decode, if_neg (by omega), base64_bytes_text]

/-- No letter of a triplet is a question mark or a zero byte. -/
theorem mem_triplet {a b c x : UInt8} (h : x ∈ base64EncodeTriplet a b c) : x ≠ 63 ∧ x ≠ 0 := by
  obtain ⟨u, v, w, y, htext, ⟨hu, hv, hw, hy⟩, -⟩ := triplet_values a b c
  rw [htext] at h
  simp only [List.mem_cons, List.not_mem_nil, or_false] at h
  rcases h with rfl | rfl | rfl | rfl
  · exact (sixbit_to_b64_ne hu).2
  · exact (sixbit_to_b64_ne hv).2
  · exact (sixbit_to_b64_ne hw).2
  · exact (sixbit_to_b64_ne hy).2

/-- Nor is one of the last group. -/
theorem mem_tail {src : Bytes} {x : UInt8} (h : x ∈ base64EncodeTail src) : x ≠ 63 ∧ x ≠ 0 := by
  rcases List.mem_append.mp h with h | h
  · exact mem_triplet (List.mem_of_mem_take h)
  · rw [List.eq_of_mem_replicate h]
    decide

/-- A base64 text holds no question mark and no terminator. -/
theorem mem_base64_text {src : Bytes} {x : UInt8} (h : x ∈ base64Text src) : x ≠ 63 ∧ x ≠ 0 := by
  induction src using base64Text.induct with
  | case1 => exact absurd h List.not_mem_nil
  | case2 a => exact mem_tail h
  | case3 a b => exact mem_tail h
  | case4 a b c src ih =>
      rw [base64Text] at h
      rcases List.mem_append.mp h with h | h
      · exact mem_triplet h
      · exact ih h

end Gnostr
