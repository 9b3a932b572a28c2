import Gnostr.Wire.Octets

/-!
# Byte order conversions

`include/endian.h`. A value in the byte order of the machine is turned into one whose octets stand
in memory in a fixed order. On a machine of that order nothing is to be done, on the other the
octets are reversed with shifts and masks. Whatever the machine, the octets in memory are in the
order asked for (`write_cpu_to_be32` and its like), and reading them back gives the value
(`be32_to_cpu_read`).
-/

namespace Gnostr

open Wire

/-! ## Reversing the octets -/

/-- `BSWAP_16`. -/
def bswap16 (val : UInt16) : UInt16 :=
  ((val &&& 0x00ff) <<< 8) ||| ((val &&& 0xff00) >>> 8)

/-- `BSWAP_32`. -/
def bswap32 (val : UInt32) : UInt32 :=
  ((val &&& 0x000000ff) <<< 24) ||| ((val &&& 0x0000ff00) <<< 8) |||
    ((val &&& 0x00ff0000) >>> 8) ||| ((val &&& 0xff000000) >>> 24)

/-- `BSWAP_64`. -/
def bswap64 (val : UInt64) : UInt64 :=
  ((val &&& 0x00000000000000ff) <<< 56) ||| ((val &&& 0x000000000000ff00) <<< 40) |||
    ((val &&& 0x0000000000ff0000) <<< 24) ||| ((val &&& 0x00000000ff000000) <<< 8) |||
    ((val &&& 0x000000ff00000000) >>> 8) ||| ((val &&& 0x0000ff0000000000) >>> 24) |||
    ((val &&& 0x00ff000000000000) >>> 40) ||| ((val &&& 0xff00000000000000) >>> 56)

/-- Swapping the bytes of two turns their octets around. -/
theorem octets_bswap16 (val : UInt16) :
    octets 2 (bswap16 val).toNat = (octets 2 val.toNat).reverse := by
  refine octets_eq_reverse fun j hj => ?_
  show (bswap16 val).toBitVec.getLsbD j = val.toBitVec.getLsbD _
  interval_cases j <;> simp [bswap16]

/-- The same for four. -/
theorem octets_bswap32 (val : UInt32) :
    octets 4 (bswap32 val).toNat = (octets 4 val.toNat).reverse := by
  refine octets_eq_reverse fun j hj => ?_
  show (bswap32 val).toBitVec.getLsbD j = val.toBitVec.getLsbD _
  interval_cases j <;> simp [bswap32]

/-- The same for eight. -/
theorem octets_bswap64 (val : UInt64) :
    octets 8 (bswap64 val).toNat = (octets 8 val.toNat).reverse := by
  refine octets_eq_reverse fun j hj => ?_
  show (bswap64 val).toBitVec.getLsbD j = val.toBitVec.getLsbD _
  interval_cases j <;> simp [bswap64]

/-! ## Conversions -/

/-- A conversion between the order of the machine and another: nothing where they are the same,
`bswap` where they differ. -/
def convert {α : Type} (bswap : α → α) (target machine : ByteOrder) (val : α) : α :=
  if machine = target then val else bswap val

/-- `cpu_to_le16`. -/
def cpuToLe16 : ByteOrder → UInt16 → UInt16 :=
  convert bswap16 .little

/-- `cpu_to_le32`. -/
def cpuToLe32 : ByteOrder → UInt32 → UInt32 :=
  convert bswap32 .little

/-- `cpu_to_le64`. -/
def cpuToLe64 : ByteOrder → UInt64 → UInt64 :=
  convert bswap64 .little

/-- `cpu_to_be16`. -/
def cpuToBe16 : ByteOrder → UInt16 → UInt16 :=
  convert bswap16 .big

/-- `cpu_to_be32`. -/
def cpuToBe32 : ByteOrder → UInt32 → UInt32 :=
  convert bswap32 .big

/-- `cpu_to_be64`. -/
def cpuToBe64 : ByteOrder → UInt64 → UInt64 :=
  convert bswap64 .big

/-- `be32_to_cpu`. -/
def be32ToCpu : ByteOrder → UInt32 → UInt32 :=
  convert bswap32 .big

/-- A converted value stands in memory as the target order has it, on every machine. -/
theorem write_convert {α : Type} {bswap : α → α} {toNat : α → Nat} {k : Nat}
    (hswap : ∀ val, octets k (toNat (bswap val)) = (octets k (toNat val)).reverse)
    (target machine : ByteOrder) (val : α) :
    machine.write k (toNat (convert bswap target machine val)) = target.write k (toNat val) := by
  unfold convert
  split
  · next heq => rw [heq]
  · next hne =>
    cases target <;> cases machine <;>
      first | exact absurd rfl hne | simp [ByteOrder.write, hswap]

/-- Two bytes in little-endian order are so on every machine. -/
theorem write_cpu_to_le16 (machine : ByteOrder) (val : UInt16) :
    machine.write 2 (cpuToLe16 machine val).toNat = octets 2 val.toNat :=
  write_convert octets_bswap16 .little machine val

/-- The same for four. -/
theorem write_cpu_to_le32 (machine : ByteOrder) (val : UInt32) :
    machine.write 4 (cpuToLe32 machine val).toNat = octets 4 val.toNat :=
  write_convert octets_bswap32 .little machine val

/-- The same for eight. -/
theorem write_cpu_to_le64 (machine : ByteOrder) (val : UInt64) :
    machine.write 8 (cpuToLe64 machine val).toNat = octets 8 val.toNat :=
  write_convert octets_bswap64 .little machine val

/-- Two bytes in big-endian order are so on every machine. -/
theorem write_cpu_to_be16 (machine : ByteOrder) (val : UInt16) :
    machine.write 2 (cpuToBe16 machine val).toNat = (octets 2 val.toNat).reverse :=
  write_convert octets_bswap16 .big machine val

/-- The same for four. -/
theorem write_cpu_to_be32 (machine : ByteOrder) (val : UInt32) :
    machine.write 4 (cpuToBe32 machine val).toNat = (octets 4 val.toNat).reverse :=
  write_convert octets_bswap32 .big machine val

/-- The same for eight. -/
theorem write_cpu_to_be64 (machine : ByteOrder) (val : UInt64) :
    machine.write 8 (cpuToBe64 machine val).toNat = (octets 8 val.toNat).reverse :=
  write_convert octets_bswap64 .big machine val

/-- A word that is read from memory and converted is the number its octets stand for, most
significant first. -/
theorem be32_to_cpu_read (machine : ByteOrder) {t : Bytes} (h : t.length = 4) :
    be32ToCpu machine (UInt32.ofNat (machine.read t)) = UInt32.ofNat (bigEndian t) := by
  cases machine with
  | big => rfl
  | little =>
      have hval : (UInt32.ofNat (littleEndian t)).toNat = littleEndian t := by
        rw [UInt32.toNat_ofNat', Nat.mod_eq_of_lt]
        simpa [h] using little_endian_lt t
      have hswap : littleEndian (octets 4 (bswap32 (UInt32.ofNat (littleEndian t))).toNat) =
          bigEndian t := by
        rw [octets_bswap32, hval, little_endian_reverse, ← h, octets_little_endian]
      refine UInt32.toNat_inj.mp ?_
      show (bswap32 (UInt32.ofNat (littleEndian t))).toNat = _
      have hlt := (bswap32 (UInt32.ofNat (littleEndian t))).toNat_lt
      rw [UInt32.toNat_ofNat', ← hswap, little_endian_octets]
      omega

end Gnostr
