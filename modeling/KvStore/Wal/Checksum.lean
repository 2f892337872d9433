import KvStore.Lib.TableCrc
import KvStore.Wal.Record

/-!
# What the checksum tells apart

`crc32` of `src/wal/record.cpp` is a table-driven checksum, and its table is
linear: an entry is eight rounds of a shift that is linear in the index. So the
entries differ in their top bytes as soon as no entry but the first has an empty
one, and that is 256 cases to look at.

The same linearity makes it the checksum that a register computes bit by bit, and
makes checksums of equally long texts add up.
-/

namespace KvStore.Wal

open Lib

/-! ## The table is that of the polynomial -/

theorem and_one_ne_zero (crc : UInt32) : crc &&& 1 ≠ 0 ↔ crc.toBitVec.getLsbD 0 = true := by
  rw [Ne, ← UInt32.toNat_inj, UInt32.toNat_and]
  show ¬ (crc.toNat &&& 1) = 0 ↔ crc.toNat.testBit 0 = true
  rw [Nat.and_one_is_mod, Nat.testBit_zero, decide_eq_true_eq]
  omega

/-- The polynomial of CRC-32, reflected. -/
def crcPoly : BitVec 32 := 0xEDB88320#32

/-- A bit of the inner loop is a round of the register. -/
theorem crcBit_shift :
    Function.Semiconj UInt32.toBitVec crcBit (TableCrc.shift crcPoly) := by
  intro crc
  rw [crcBit, TableCrc.shift]
  by_cases h : crc.toBitVec.getLsbD 0 = true
  · rw [if_pos ((and_one_ne_zero crc).mpr h), if_pos h, UInt32.toBitVec_xor]
    rfl
  · rw [if_neg (mt (and_one_ne_zero crc).mp h), if_neg h]
    rfl

/-! ## The checksum loop is the table-driven one -/

/-- The table as the loop reads it. -/
def crcTable (i : BitVec 8) : BitVec 32 := (crcEntry (UInt32.ofNat i.toNat)).toBitVec

theorem crcTable_eq : crcTable = TableCrc.tableOf crcPoly := by
  funext i
  have hindex : (UInt32.ofNat i.toNat).toBitVec = i.setWidth 32 :=
    BitVec.eq_of_toNat_eq (by rw [BitVec.toNat_setWidth]; rfl)
  rw [crcTable, crcEntry, crcBit_shift.iterate_right 8, hindex]
  rfl

theorem crcTable_linear : TableCrc.Linear crcTable :=
  crcTable_eq ▸ TableCrc.tableOf_linear crcPoly

/-- No entry but the first has an empty top byte. -/
theorem crcTable_top : ∀ i : BitVec 8, crcTable i >>> 24 = 0 → i = 0 := by
  decide +kernel

theorem crcTable_apart : TableCrc.Apart crcTable := by
  intro i j h
  have hzero : crcTable (i ^^^ j) >>> 24 = 0 := by
    rw [crcTable_linear, BitVec.ushiftRight_xor_distrib]
    rw [show crcTable i >>> 24 = crcTable j >>> 24 from h]
    exact BitVec.xor_self
  exact BitVec.xor_eq_zero_iff.mp (crcTable_top _ hzero)

theorem buildCrcTable_getD {n : Nat} (h : n < 256) :
    buildCrcTable.getD n 0 = crcEntry (UInt32.ofNat n) := by
  rw [buildCrcTable, List.getD_eq_getElem _ _ (by simpa using h), List.getElem_map,
    List.getElem_range]

theorem crcByte_step (crc : UInt32) (byte : UInt8) :
    (crcByte crc byte).toBitVec = TableCrc.step crcTable crc.toBitVec byte.toBitVec := by
  have hindex : ((crc ^^^ byte.toUInt32) &&& 0xFF).toNat
      = (crc.toBitVec.setWidth 8 ^^^ byte.toBitVec).toNat := by
    have hbyte : byte.toNat % 2 ^ 8 = byte.toNat := Nat.mod_eq_of_lt byte.toNat_lt
    rw [UInt32.toNat_and, UInt32.toNat_xor, BitVec.toNat_xor, BitVec.toNat_setWidth,
      UInt8.toNat_toUInt32]
    show (crc.toNat ^^^ byte.toNat) &&& (2 ^ 8 - 1) = crc.toNat % 2 ^ 8 ^^^ byte.toNat
    rw [Nat.and_two_pow_sub_one_eq_mod, Nat.xor_mod_two_pow, hbyte]
  rw [crcByte, hindex, buildCrcTable_getD (BitVec.isLt _), UInt32.toBitVec_xor]
  rfl

theorem foldl_crcByte (data : Bytes) (crc : UInt32) :
    (data.foldl crcByte crc).toBitVec
      = (data.map UInt8.toBitVec).foldl (TableCrc.step crcTable) crc.toBitVec := by
  induction data generalizing crc with
  | nil => rfl
  | cons b bs ih => rw [List.foldl_cons, ih, crcByte_step, List.map_cons, List.foldl_cons]

/-- **A burst of at most four bytes changes the checksum**, wherever it stands. -/
theorem crc32_burst {before burst burst' after : Bytes} (hlen : burst'.length = burst.length)
    (h4 : burst.length ≤ 4)
    (h : crc32 (before ++ burst ++ after) = crc32 (before ++ burst' ++ after)) :
    burst = burst' := by
  have hstate := UInt32.toBitVec_inj.mpr (UInt32.xor_left_inj 0xFFFFFFFF |>.mp h)
  rw [foldl_crcByte, foldl_crcByte] at hstate
  simp only [List.map_append, List.foldl_append] at hstate
  have hbehind := TableCrc.foldl_step_injective crcTable_apart (by decide) _ hstate
  have hbytes := TableCrc.foldl_step_burst crcTable_apart
    (by rw [List.length_map, List.length_map, hlen]) (by rw [List.length_map]; omega) hbehind
  exact List.map_injective_iff.mpr (fun _ _ hb => UInt8.toBitVec_inj.mp hb) hbytes

/-! ## Bit by bit -/

theorem crc32_toBitVec (data : Bytes) :
    (crc32 data).toBitVec
      = (data.map UInt8.toBitVec).foldl
        (TableCrc.step crcTable) 0xFFFFFFFF#32 ^^^ 0xFFFFFFFF#32 := by
  rw [crc32, UInt32.toBitVec_xor, foldl_crcByte]
  rfl

/-- The checksum as it is defined: one bit at a time, the lowest of every byte first. -/
def serialCrc32 (data : Bytes) : BitVec 32 :=
  ~~~ (data.map UInt8.toBitVec).foldl (TableCrc.serialByte 0xEDB88320#32) 0xFFFFFFFF#32

/-- The bytewise exclusive or of two texts. -/
def xorBytes (a b : Bytes) : Bytes := List.zipWith (· ^^^ ·) a b

theorem map_xorBytes (a b : Bytes) :
    (xorBytes a b).map UInt8.toBitVec
      = List.zipWith (· ^^^ ·) (a.map UInt8.toBitVec) (b.map UInt8.toBitVec) := by
  rw [xorBytes, List.map_zipWith, List.zipWith_map]
  rfl

theorem length_xorBytes {a b : Bytes} (h : b.length = a.length) :
    (xorBytes a b).length = a.length := by
  rw [xorBytes, List.length_zipWith, h, Nat.min_self]

theorem crc32_serial (data : Bytes) : (crc32 data).toBitVec = serialCrc32 data := by
  have hstep : TableCrc.step crcTable = TableCrc.serialByte crcPoly := by
    funext crc byte
    rw [crcTable_eq, TableCrc.step_table crcPoly (by decide)]
  rw [crc32_toBitVec, hstep, serialCrc32]
  exact BitVec.xor_allOnes

theorem crc32_xor {a b c : Bytes} (hb : b.length = a.length) (hc : c.length = a.length) :
    crc32 (xorBytes (xorBytes a b) c) = crc32 a ^^^ crc32 b ^^^ crc32 c := by
  have hb' : (b.map UInt8.toBitVec).length = (a.map UInt8.toBitVec).length := by
    rw [List.length_map, List.length_map, hb]
  have hc' : (c.map UInt8.toBitVec).length = ((xorBytes a b).map UInt8.toBitVec).length := by
    rw [List.length_map, List.length_map, length_xorBytes hb, hc]
  -- the initial state, and the last complement, are added an odd number of times
  have hodd : ∀ x : BitVec 32, x ^^^ x ^^^ x = x := fun x => by
    rw [BitVec.xor_self, BitVec.zero_xor]
  have hsum := TableCrc.foldl_step_xor crcTable_linear hc' (0xFFFFFFFF#32 ^^^ 0xFFFFFFFF#32)
    0xFFFFFFFF#32
  rw [← map_xorBytes, hodd] at hsum
  apply UInt32.toBitVec_inj.mp
  rw [UInt32.toBitVec_xor, UInt32.toBitVec_xor, crc32_toBitVec, crc32_toBitVec, crc32_toBitVec,
    crc32_toBitVec, hsum, map_xorBytes, TableCrc.foldl_step_xor crcTable_linear hb',
    TableCrc.xor_xor_xor_comm _ 0xFFFFFFFF#32, TableCrc.xor_xor_xor_comm _ (_ ^^^ 0xFFFFFFFF#32),
      hodd]

/--
**The table is a matter of speed only**: the checksum is the one that is computed bit by
bit. And it is affine, so that of three equally long texts, the checksum of their sum is
the sum of their checksums.
-/
theorem crc32_bit_serial_and_affine :
    (∀ data, (crc32 data).toBitVec = serialCrc32 data)
      ∧ ∀ a b c : Bytes, b.length = a.length → c.length = a.length →
        crc32 (xorBytes (xorBytes a b) c) = crc32 a ^^^ crc32 b ^^^ crc32 c :=
  ⟨crc32_serial, fun _ _ _ hb hc => crc32_xor hb hc⟩

/-- The check value of the algorithm, and three texts of three bytes. -/
theorem crc32_bit_serial_and_affine_abc :
    serialCrc32 [49, 50, 51, 52, 53, 54, 55, 56, 57] = 0xCBF43926#32
      ∧ crc32 (xorBytes (xorBytes [1, 2, 3] [4, 5, 6]) [7, 8, 9])
        = crc32 [1, 2, 3] ^^^ crc32 [4, 5, 6] ^^^ crc32 [7, 8, 9] :=
  ⟨by decide +kernel, crc32_bit_serial_and_affine.2 _ _ _ rfl rfl⟩

end KvStore.Wal
