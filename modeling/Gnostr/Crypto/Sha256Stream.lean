import Gnostr.Crypto.Sha256Standard

/-!
# Hashing a message piece by piece

What a context holds after some bytes were taken (`Holds`): the chain over the whole blocks, what
follows them at the front of the buffer, and the count. `add` keeps this whatever the address and
the size of a piece (`add_holds`), so `sha256_done` returns the digest of the standard of all
pieces together (`sha256_stream`). The padding goes through `add` as well: it is the text that
makes the last block whole.
-/

namespace Gnostr.Sha256

open Wire

/-! ## The buffer -/

/-- `memcpy` that stays within the buffer leaves what stood before it and adds the bytes. -/
theorem memcpy_take (buf : Block 64) {at_ : Nat} {t : Bytes} (h : at_ + t.length ≤ 64) :
    ∃ buf', memcpy buf at_ t = .ok buf' ∧ buf'.1.take (at_ + t.length) = buf.1.take at_ ++ t := by
  refine ⟨_, dif_pos h, ?_⟩
  have hat : (buf.1.take at_ ++ t).length = at_ + t.length := by
    rw [List.length_append, List.length_take, buf.2]
    omega
  exact List.take_left' hat

/-- Filling the buffer to its end leaves nothing else in it. -/
theorem memcpy_full (buf : Block 64) {at_ : Nat} {t : Bytes} (h : at_ + t.length = 64) :
    ∃ buf', memcpy buf at_ t = .ok buf' ∧ buf'.1 = buf.1.take at_ ++ t := by
  obtain ⟨buf', hcopy, htake⟩ := memcpy_take buf (Nat.le_of_eq h)
  refine ⟨buf', hcopy, ?_⟩
  rw [← htake, List.take_of_length_le (by rw [buf'.2, h])]

/-! ## What a context holds -/

/-- The chain and the count after the whole blocks of a text, and the count after all of it. -/
structure Counts (ctx : Ctx) (t : Bytes) : Prop where
  s : ctx.s = absorb Standard.compress Standard.initial t
  bytes : ctx.bytes = UInt64.ofNat t.length

/-- A context that has taken a text. -/
structure Holds (ctx : Ctx) (t : Bytes) : Prop extends Counts ctx t where
  buf : ctx.buf.1.take (t.length % 64) = rest 64 t

/-- At first nothing was added. -/
theorem holds_init : Holds sha256Init [] where
  s := rfl
  bytes := rfl
  buf := rfl

/-- The size of the text modulo the size of a block survives the overflow of the count. -/
theorem Counts.bufsize {ctx : Ctx} {t : Bytes} (h : Counts ctx t) :
    ctx.bytes.toNat % 64 = t.length % 64 := by
  rw [h.bytes, UInt64.toNat_ofNat']
  omega

/-- The counter grows with the text. -/
theorem Counts.add_bytes {ctx : Ctx} {t u : Bytes} (h : Counts ctx t) :
    ctx.bytes + UInt64.ofNat u.length = UInt64.ofNat (t ++ u).length := by
  rw [h.bytes, List.length_append, UInt64.ofNat_add]

/-- The chain after another block, where nothing is kept. -/
theorem Counts.chain_block {ctx : Ctx} {t : Bytes} (h : Counts ctx t) (order : ByteOrder)
    {u : Bytes} {b : Block 64} (hb : b.1 = rest 64 t ++ u) :
    transform order ctx.s b = absorb Standard.compress Standard.initial (t ++ u) := by
  rw [absorb_append Standard.compress (by omega), ← hb, absorb_block Standard.compress (by omega),
    ← h.s, transform_eq]

/-! ## The parts of `add` -/

/-- Nothing is left of whole blocks. -/
theorem rest_of_dvd {t : Bytes} (h : t.length % 64 = 0) : rest 64 t = [] := by
  rw [← List.length_eq_zero_iff, length_rest, h]

/-- The buffer is filled and compressed. -/
theorem fill_buffer_counts (m : Machine) {ctx : Ctx} {t : Bytes} (h : Holds ctx t) (addr : Nat)
    {data : Bytes} (hfull : 64 ≤ t.length % 64 + data.length) :
    ∃ ctx', fillBuffer m ctx (t.length % 64) addr data =
        .ok (ctx', addr + (64 - t.length % 64), data.drop (64 - t.length % 64)) ∧
      Counts ctx' (t ++ data.take (64 - t.length % 64)) ∧
      (t ++ data.take (64 - t.length % 64)).length % 64 = 0 := by
  have hlen : (data.take (64 - t.length % 64)).length = 64 - t.length % 64 :=
    List.length_take_of_le (by omega)
  have hmod : t.length % 64 < 64 := Nat.mod_lt _ (by omega)
  have hend : t.length % 64 + (data.take (64 - t.length % 64)).length = 64 := by omega
  obtain ⟨buf, hcopy, hbuf⟩ := memcpy_full ctx.buf hend
  rw [h.buf] at hbuf
  refine ⟨⟨transform m.order ctx.s buf, buf, ctx.bytes + UInt64.ofNat (64 - t.length % 64)⟩, ?_,
    ⟨h.chain_block m.order hbuf, ?_⟩, ?_⟩
  · rw [fillBuffer, hcopy]
    rfl
  · rw [← h.add_bytes, hlen]
  · rw [List.length_append, hlen]
    omega

/-- The loop takes the whole blocks of the data, whichever way each of them goes. -/
theorem add_chunks_counts (m : Machine) {ctx : Ctx} {t : Bytes} (h : Counts ctx t)
    (ht : t.length % 64 = 0) (addr : Nat) (data : Bytes) :
    ∃ ctx', addChunks m ctx addr data = .ok (ctx', rest 64 data) ∧
      ctx'.s = absorb Standard.compress Standard.initial (t ++ data) ∧
      ctx'.bytes + UInt64.ofNat (rest 64 data).length = UInt64.ofNat (t ++ data).length := by
  induction data using block_induction (n := 64) (by omega) generalizing ctx t addr with
  | short data hlt =>
      refine ⟨ctx, ?_, ?_, ?_⟩
      · rw [addChunks, if_neg (by omega), rest_of_lt hlt]
        rfl
      · rw [absorb_append Standard.compress (by omega), rest_of_dvd ht, List.nil_append,
          absorb_of_lt Standard.compress hlt, h.s]
      · rw [rest_of_lt hlt, h.add_bytes]
  | step b data ih =>
      have hlen : (t ++ b.1).length % 64 = 0 := by
        rw [List.length_append, b.2]
        omega
      have hchain : transform m.order ctx.s b =
          absorb Standard.compress Standard.initial (t ++ b.1) :=
        h.chain_block m.order (by rw [rest_of_dvd ht, List.nil_append])
      have hbytes : ctx.bytes + 64 = UInt64.ofNat (t ++ b.1).length := by
        rw [← h.add_bytes, b.2]
        rfl
      have hfirst : Block.first 64 (b.1 ++ data) = b := by
        refine Subtype.ext ?_
        rw [Block.first_of_le (by simp [b.2]), List.take_left' b.2]
      rw [addChunks, if_pos (by rw [List.length_append, b.2]; omega), List.drop_left' b.2,
        rest_block_append (by omega), ← List.append_assoc]
      split
      · rw [hfirst]
        exact ih ⟨hchain, hbytes⟩ hlen _
      · obtain ⟨buf, hcopy, hbuf⟩ := memcpy_full ctx.buf (t := b.1)
          (show 0 + b.1.length = 64 by rw [b.2])
        rw [List.take_zero, List.nil_append] at hbuf
        rw [List.take_left' b.2, hcopy, Subtype.ext hbuf]
        exact ih ⟨hchain, hbytes⟩ hlen _

/-- What is left is kept behind what the buffer holds. -/
theorem keep_rest_ok (ctx : Ctx) (bufsize : Nat) (data : Bytes) (h : bufsize + data.length ≤ 64) :
    ∃ ctx', keepRest ctx bufsize data = .ok ctx' ∧ ctx'.s = ctx.s ∧
      ctx'.bytes = ctx.bytes + UInt64.ofNat data.length ∧
      ctx'.buf.1.take (bufsize + data.length) = ctx.buf.1.take bufsize ++ data := by
  unfold keepRest
  by_cases hnil : data.length ≠ 0
  · obtain ⟨buf, hcopy, hbuf⟩ := memcpy_take ctx.buf h
    refine ⟨⟨ctx.s, buf, ctx.bytes + UInt64.ofNat data.length⟩, ?_, rfl, rfl, hbuf⟩
    rw [if_pos hnil, hcopy]
    rfl
  · obtain rfl : data = [] := List.length_eq_zero_iff.mp (not_not.mp hnil)
    refine ⟨ctx, rfl, rfl, ?_, ?_⟩
    · simp
    · simp

/-! ## Taking a piece -/

/-- `add` takes any piece. -/
theorem add_holds (m : Machine) {ctx : Ctx} {t : Bytes} (h : Holds ctx t) (p : Object) :
    ∃ ctx', add m ctx p = .ok ctx' ∧ Holds ctx' (t ++ p.data) := by
  have hmod : t.length % 64 < 64 := Nat.mod_lt _ (by omega)
  have hsum : (t.length % 64 + p.data.length) % 2 ^ 64 = t.length % 64 + p.data.length :=
    Nat.mod_eq_of_lt (by have hsmall := p.small; omega)
  unfold add
  simp only [h.bufsize, hsum]
  by_cases hfull : 64 ≤ t.length % 64 + p.data.length
  · rw [if_pos hfull]
    obtain ⟨ctx₁, hfill, hcounts, hwhole⟩ := fill_buffer_counts m h p.addr hfull
    obtain ⟨ctx₂, hchunks, hs, hbytes⟩ := add_chunks_counts m hcounts hwhole
      (p.addr + (64 - t.length % 64)) (p.data.drop (64 - t.length % 64))
    rw [List.append_assoc, List.take_append_drop] at hs hbytes
    have hrest : rest 64 (t ++ p.data) = rest 64 (p.data.drop (64 - t.length % 64)) := by
      conv_lhs => rw [← List.take_append_drop (64 - t.length % 64) p.data, ← List.append_assoc]
      rw [rest_append (by omega), rest_of_dvd hwhole, List.nil_append]
    have hlen := length_rest 64 (p.data.drop (64 - t.length % 64))
    have hlen' := length_rest 64 (t ++ p.data)
    rw [hrest] at hlen'
    obtain ⟨ctx₃, hkeep, hs', hbytes', hbuf⟩ := keep_rest_ok ctx₂ 0
      (rest 64 (p.data.drop (64 - t.length % 64))) (by omega)
    refine ⟨ctx₃, ?_, ⟨hs'.trans hs, hbytes'.trans hbytes⟩, ?_⟩
    · rw [hfill]
      simp only [bind, Except.bind, hchunks, hkeep]
    · rw [← hlen', hrest]
      simpa using hbuf
  · rw [if_neg hfull]
    have hshort : p.data.length < 64 := by omega
    obtain ⟨ctx', hkeep, hs, hbytes, hbuf⟩ := keep_rest_ok ctx (t.length % 64)
      p.data (by omega)
    have hchunks : addChunks m ctx p.addr p.data = .ok (ctx, p.data) := by
      rw [addChunks, if_neg (by omega)]
      rfl
    have hrest : (rest 64 t ++ p.data).length < 64 := by
      rw [List.length_append, length_rest]
      omega
    refine ⟨ctx', ?_, ⟨?_, hbytes.trans h.add_bytes⟩, ?_⟩
    · rw [hchunks]
      exact hkeep
    · rw [hs, h.s, absorb_append Standard.compress (by omega), absorb_of_lt Standard.compress hrest]
    · have hlen : (t ++ p.data).length % 64 = t.length % 64 + p.data.length := by
        rw [List.length_append]
        omega
      rw [hlen, hbuf, h.buf, rest_append (by omega), rest_of_lt hrest]

/-! ## The end -/

/-- The octets of a number do not depend on what they cannot hold. -/
theorem octets_mod (k n : Nat) : octets k (n % 256 ^ k) = octets k n := by
  rw [← little_endian_octets]
  simpa using octets_little_endian (octets k n)

/-- The padding of the code, for a count of bytes that may have overflown. -/
theorem padded_eq (len : Nat) :
    pad.take (1 + (128 - 8 - len % 64 - 1) % 64) =
      0x80 :: List.replicate ((64 - (len + 9) % 64) % 64) 0 := by
  have hcount : (128 - 8 - len % 64 - 1) % 64 = (64 - (len + 9) % 64) % 64 := by omega
  have hle : (64 - (len + 9) % 64) % 64 ≤ 63 := by omega
  rw [hcount, Nat.add_comm 1, pad, List.take_succ_cons, List.take_replicate, Nat.min_eq_left hle]

/-- The length in bits, as it stands in memory on every machine. -/
theorem sizedesc_eq (order : ByteOrder) (len : Nat) :
    order.write 8 (cpuToBe64 order (UInt64.ofNat len <<< 3)).toNat =
      (octets 8 (8 * len)).reverse := by
  have hbits : (UInt64.ofNat len <<< 3).toNat = 8 * len % 256 ^ 8 := by
    rw [UInt64.toNat_shiftLeft, UInt64.toNat_ofNat']
    show (len % 2 ^ 64) <<< 3 % 2 ^ 64 = _
    rw [Nat.shiftLeft_eq]
    omega
  rw [write_cpu_to_be64, hbits, octets_mod]

/-- The digest is written as the standard has it. -/
theorem result_bytes_eq (m : Machine) (s : Chain) : resultBytes m s = Standard.Chain.bytes s := by
  simp only [resultBytes, write_cpu_to_be32, Standard.Chain.bytes]

/-- `sha256_done` returns the digest of the text and makes the context unusable. -/
theorem sha256_done_eq (m : Machine) {ctx : Ctx} {t : Bytes} (h : Holds ctx t) :
    ∃ ctx', sha256Done m ctx = .ok (Standard.digest t, ctx') ∧ ctx'.bytes = maxSize := by
  obtain ⟨ctx₁, hpad, hholds⟩ := add_holds m h ⟨m.padAddr,
    pad.take (1 + (128 - 8 - t.length % 64 - 1) % 64), length_pad_take_lt _⟩
  obtain ⟨ctx₂, hsize, hholds⟩ := add_holds m hholds
    (.word m m.sizedescAddr 8 (cpuToBe64 m.order (UInt64.ofNat t.length <<< 3)).toNat)
  have htext : t ++ pad.take (1 + (128 - 8 - t.length % 64 - 1) % 64) ++
      m.order.write 8 (cpuToBe64 m.order (UInt64.ofNat t.length <<< 3)).toNat =
        t ++ Standard.padding t.length := by
    rw [padded_eq, sizedesc_eq, Standard.padding, List.append_assoc, List.cons_append]
  refine ⟨invalidateSha256 ctx₂, ?_, rfl⟩
  have hsha : resultBytes m ctx₂.s = (Standard.digest t).1 := by
    rw [result_bytes_eq, hholds.s]
    exact congrArg (fun u => Standard.Chain.bytes (absorb _ _ u)) htext
  unfold sha256Done
  simp only [h.bufsize]
  simp only [h.bytes, hpad, bind, Except.bind, hsize, pure, Except.pure]
  exact congrArg Except.ok (Prod.ext (Subtype.ext hsha) rfl)

/-- `sha256` is the digest of the standard. -/
theorem sha256_eq (m : Machine) (p : Object) : sha256 m p = .ok (Standard.digest p.data) := by
  obtain ⟨ctx, hadd, hholds⟩ := add_holds m holds_init p
  obtain ⟨ctx', hdone, -⟩ := sha256_done_eq m hholds
  have hupdate : sha256Update m sha256Init p = .ok ctx := hadd
  rw [sha256, hupdate]
  simp only [bind, Except.bind, hdone, List.nil_append, pure, Except.pure]

/-! ## Any number of pieces -/

/-- One call that adds to a context. -/
inductive Item where
  | update (p : Object)
  | u8 (addr : Nat) (v : UInt8)
  | u16 (addr : Nat) (v : UInt16)
  | u32 (addr : Nat) (v : UInt32)
  | u64 (addr : Nat) (v : UInt64)
  | le16 (addr : Nat) (v : UInt16)
  | le32 (addr : Nat) (v : UInt32)
  | le64 (addr : Nat) (v : UInt64)
  | be16 (addr : Nat) (v : UInt16)
  | be32 (addr : Nat) (v : UInt32)
  | be64 (addr : Nat) (v : UInt64)

/-- The call. -/
def Item.call (m : Machine) (ctx : Ctx) : Item → Except Stop Ctx
  | update p => sha256Update m ctx p
  | u8 addr v => sha256U8 m addr ctx v
  | u16 addr v => sha256U16 m addr ctx v
  | u32 addr v => sha256U32 m addr ctx v
  | u64 addr v => sha256U64 m addr ctx v
  | le16 addr v => sha256Le16 m addr ctx v
  | le32 addr v => sha256Le32 m addr ctx v
  | le64 addr v => sha256Le64 m addr ctx v
  | be16 addr v => sha256Be16 m addr ctx v
  | be32 addr v => sha256Be32 m addr ctx v
  | be64 addr v => sha256Be64 m addr ctx v

/-- The bytes it adds. Only the calls without a byte order in their name depend on the machine. -/
def Item.bytes (order : ByteOrder) : Item → Bytes
  | update p => p.data
  | u8 _ v => [v]
  | u16 _ v => order.write 2 v.toNat
  | u32 _ v => order.write 4 v.toNat
  | u64 _ v => order.write 8 v.toNat
  | le16 _ v => octets 2 v.toNat
  | le32 _ v => octets 4 v.toNat
  | le64 _ v => octets 8 v.toNat
  | be16 _ v => (octets 2 v.toNat).reverse
  | be32 _ v => (octets 4 v.toNat).reverse
  | be64 _ v => (octets 8 v.toNat).reverse

/-- Every call is an update with an object that holds the bytes. -/
theorem item_call_eq (m : Machine) (i : Item) :
    ∃ p : Object, p.data = i.bytes m.order ∧ ∀ ctx, i.call m ctx = sha256Update m ctx p := by
  cases i with
  | update p => exact ⟨p, rfl, fun _ => rfl⟩
  | u8 addr v =>
      refine ⟨.word m addr 1 v.toNat, ?_, fun _ => rfl⟩
      cases horder : m.order <;> simp [Object.word, ByteOrder.write, octets, Item.bytes, horder]
  | u16 addr v => exact ⟨.word m addr 2 v.toNat, rfl, fun _ => rfl⟩
  | u32 addr v => exact ⟨.word m addr 4 v.toNat, rfl, fun _ => rfl⟩
  | u64 addr v => exact ⟨.word m addr 8 v.toNat, rfl, fun _ => rfl⟩
  | le16 addr v => exact ⟨.word m addr 2 _, write_cpu_to_le16 m.order v, fun _ => rfl⟩
  | le32 addr v => exact ⟨.word m addr 4 _, write_cpu_to_le32 m.order v, fun _ => rfl⟩
  | le64 addr v => exact ⟨.word m addr 8 _, write_cpu_to_le64 m.order v, fun _ => rfl⟩
  | be16 addr v => exact ⟨.word m addr 2 _, write_cpu_to_be16 m.order v, fun _ => rfl⟩
  | be32 addr v => exact ⟨.word m addr 4 _, write_cpu_to_be32 m.order v, fun _ => rfl⟩
  | be64 addr v => exact ⟨.word m addr 8 _, write_cpu_to_be64 m.order v, fun _ => rfl⟩

/-- No call starts when the count has the value that marks a finished context. -/
def Accepted (order : ByteOrder) : Nat → List Item → Prop
  | _, [] => True
  | n, i :: items => n % 2 ^ 64 ≠ 2 ^ 64 - 1 ∧ Accepted order (n + (i.bytes order).length) items

/-- An update of a context that holds a text of some length. -/
theorem sha256_update_holds (m : Machine) {ctx : Ctx} {t : Bytes} (h : Holds ctx t) (p : Object)
    (hcount : t.length % 2 ^ 64 ≠ 2 ^ 64 - 1) :
    ∃ ctx', sha256Update m ctx p = .ok ctx' ∧ Holds ctx' (t ++ p.data) := by
  obtain ⟨ctx', hadd, hholds⟩ := add_holds m h p
  have hbytes : ctx.bytes ≠ maxSize := by
    rw [h.bytes]
    intro heq
    refine hcount ?_
    rw [← UInt64.toNat_ofNat', heq]
    rfl
  refine ⟨ctx', ?_, hholds⟩
  rw [sha256Update, checkSha256, if_pos hbytes]
  exact hadd

/-- A context that is done takes no more. -/
theorem sha256_update_aborts (m : Machine) {ctx : Ctx} (h : ctx.bytes = maxSize) (p : Object) :
    sha256Update m ctx p = .error .aborted := by
  rw [sha256Update, checkSha256, if_neg (by simp [h])]
  rfl

/-- The count of a text whose length is the largest `size_t`, or differs from it by overflows. -/
theorem Counts.bytes_eq_max {ctx : Ctx} {t : Bytes} (h : Counts ctx t)
    (hcount : t.length % 2 ^ 64 = 2 ^ 64 - 1) : ctx.bytes = maxSize := by
  refine UInt64.toNat_inj.mp ?_
  rw [h.bytes, UInt64.toNat_ofNat', hcount]
  rfl

/-- Calls are accepted while the text is short enough, and abort from there on. -/
theorem calls_hold (m : Machine) (items : List Item) {ctx : Ctx} {t : Bytes} (h : Holds ctx t) :
    (Accepted m.order t.length items → ∃ ctx', items.foldlM (Item.call m) ctx = .ok ctx' ∧
        Holds ctx' (t ++ items.flatMap (Item.bytes m.order))) ∧
      (¬ Accepted m.order t.length items →
        items.foldlM (Item.call m) ctx = .error .aborted) := by
  induction items generalizing ctx t with
  | nil =>
      refine ⟨fun _ => ⟨ctx, rfl, ?_⟩, fun hnot => absurd trivial hnot⟩
      simpa using h
  | cons i items ih =>
      obtain ⟨p, hdata, hcall⟩ := item_call_eq m i
      rw [List.foldlM_cons, hcall]
      by_cases hcount : t.length % 2 ^ 64 = 2 ^ 64 - 1
      · rw [sha256_update_aborts m (h.bytes_eq_max hcount)]
        exact ⟨fun hacc => absurd hcount hacc.1, fun _ => rfl⟩
      · obtain ⟨ctx', hupdate, hholds⟩ := sha256_update_holds m h p hcount
        have hlen : (t ++ p.data).length = t.length + (i.bytes m.order).length := by
          rw [List.length_append, hdata]
        have hrest := ih hholds
        rw [hlen, hdata, List.append_assoc] at hrest
        rw [hupdate]
        exact ⟨fun hacc => hrest.1 hacc.2, fun hnot => hrest.2 fun hacc => hnot ⟨hcount, hacc⟩⟩

/-- However a message is cut into pieces, whichever functions add them and wherever they lie in
memory, the result is the digest of the standard of all bytes together, and the context cannot be
used again. The assertion stops a run exactly when a call finds the count at the largest
`size_t`. -/
theorem sha256_stream (m : Machine) (items : List Item) :
    (Accepted m.order 0 items →
        ∃ ctx, (items.foldlM (Item.call m) sha256Init >>= sha256Done m) =
            .ok (Standard.digest (items.flatMap (Item.bytes m.order)), ctx) ∧
          ∀ i : Item, i.call m ctx = .error .aborted) ∧
      (¬ Accepted m.order 0 items →
        (items.foldlM (Item.call m) sha256Init >>= sha256Done m) = .error .aborted) := by
  obtain ⟨haccepted, hrefused⟩ := calls_hold m items holds_init
  constructor
  · intro hacc
    obtain ⟨ctx, hcalls, hholds⟩ := haccepted hacc
    obtain ⟨ctx', hdone, hmax⟩ := sha256_done_eq m hholds
    rw [hcalls]
    refine ⟨ctx', hdone, fun i => ?_⟩
    obtain ⟨p, -, hcall⟩ := item_call_eq m i
    rw [hcall, sha256_update_aborts m hmax]
  · intro hnot
    rw [hrefused hnot]
    rfl

end Gnostr.Sha256
