import KvStore.Lib.Framing
import KvStore.Lib.LittleEndian

/-!
# The record format of the log

`src/wal/record.cpp`. A record is `[length][crc32][payload]`, the two header
fields four bytes each, little-endian. `std::string` is a list of bytes, and
`std::uint32_t` is `UInt32`; sizes and offsets are natural numbers, since no
buffer comes near the `std::size_t` limit.
-/

namespace KvStore

/-- `std::string`: the program never looks at it as text. -/
abbrev Bytes := List UInt8

namespace Wal

/-- The length and the checksum. -/
def kHeaderBytes : Nat := 8

/-- A record that says it is longer is taken for damage. -/
def kMaxPayloadBytes : Nat := 64 * 1024 * 1024

/-! ## The checksum -/

/-- One bit of the table's inner loop. -/
def crcBit (crc : UInt32) : UInt32 :=
  if crc &&& 1 ≠ 0 then (crc >>> 1) ^^^ 0xEDB88320 else crc >>> 1

/-- One table entry: eight bits of the index, shifted out. -/
def crcEntry (i : UInt32) : UInt32 := crcBit^[8] i

/-- `buildCrcTable`. -/
def buildCrcTable : List UInt32 := (List.range 256).map fun i => crcEntry (UInt32.ofNat i)

/-- One byte of the checksum loop. -/
def crcByte (crc : UInt32) (byte : UInt8) : UInt32 :=
  buildCrcTable.getD ((crc ^^^ byte.toUInt32) &&& 0xFF).toNat 0 ^^^ (crc >>> 8)

/-- `crc32`. -/
def crc32 (data : Bytes) : UInt32 := data.foldl crcByte 0xFFFFFFFF ^^^ 0xFFFFFFFF

/-! ## Header fields -/

/-- `appendLittleEndian32`. -/
def appendLittleEndian32 (out : Bytes) (value : UInt32) : Bytes :=
  out ++ [(value &&& 0xFF).toUInt8, ((value >>> 8) &&& 0xFF).toUInt8,
    ((value >>> 16) &&& 0xFF).toUInt8, ((value >>> 24) &&& 0xFF).toUInt8]

/-- `readLittleEndian32`. -/
def readLittleEndian32 (buffer : Bytes) (offset : Nat) : UInt32 :=
  (buffer.getD offset 0).toUInt32
    ||| ((buffer.getD (offset + 1) 0).toUInt32 <<< 8)
    ||| ((buffer.getD (offset + 2) 0).toUInt32 <<< 16)
    ||| ((buffer.getD (offset + 3) 0).toUInt32 <<< 24)

/-! ## Framing and parsing -/

/-- `frame`: the length, the checksum, the payload. -/
def frame (payload : Bytes) : Bytes :=
  appendLittleEndian32 (appendLittleEndian32 [] (UInt32.ofNat payload.length)) (crc32 payload)
    ++ payload

/-- `ParseResult`, with the two output parameters that an `Ok` fills in. -/
inductive ParseResult where
  | ok (payload : Bytes) (nextOffset : Nat)
  | incomplete
  | corrupt
  deriving DecidableEq, Repr

/-- `parseRecord`. -/
def parseRecord (buffer : Bytes) (offset : Nat) : ParseResult :=
  if offset + kHeaderBytes > buffer.length then .incomplete
  else
    let length := (readLittleEndian32 buffer offset).toNat
    let expectedCrc := readLittleEndian32 buffer (offset + 4)
    if length > kMaxPayloadBytes then .corrupt
    else
      let bodyStart := offset + kHeaderBytes
      if bodyStart + length > buffer.length then .incomplete
      else
        let body := (buffer.drop bodyStart).take length
        if crc32 body ≠ expectedCrc then .corrupt
        else .ok body (bodyStart + length)

/-! ## Header fields round-trip -/

open Lib

private theorem and_ff (n : Nat) : n &&& 255 = n % 256 := Nat.and_two_pow_sub_one_eq_mod n 8

theorem appendLittleEndian32_eq (out : Bytes) (value : UInt32) :
    appendLittleEndian32 out value = out ++ toLE 4 value.toNat := by
  have hb : [(value &&& 0xFF).toUInt8, ((value >>> 8) &&& 0xFF).toUInt8,
      ((value >>> 16) &&& 0xFF).toUInt8, ((value >>> 24) &&& 0xFF).toUInt8]
      = toLE 4 value.toNat := by
    simp only [toLE, Nat.div_div_eq_div_mul, List.cons.injEq, and_true]
    refine ⟨?_, ?_, ?_, ?_⟩ <;>
      · apply UInt8.toNat_inj.mp
        simp [and_ff, Nat.shiftRight_eq_div_pow]
  rw [appendLittleEndian32, hb]

/-- Four bytes read with shifts and ors are the number they spell. -/
theorem readLittleEndian32_of_drop {buffer rest : Bytes} {offset : Nat} {b0 b1 b2 b3 : UInt8}
    (h : buffer.drop offset = b0 :: b1 :: b2 :: b3 :: rest) :
    (readLittleEndian32 buffer offset).toNat = ofLE [b0, b1, b2, b3] := by
  have hget : ∀ i, buffer.getD (offset + i) 0 = (b0 :: b1 :: b2 :: b3 :: rest).getD i 0 := by
    intro i
    rw [← h, List.getD_eq_getElem?_getD, List.getD_eq_getElem?_getD, List.getElem?_drop]
  have hor : ofLE [b0, b1, b2, b3]
      = b0.toNat ||| b1.toNat <<< 8 ||| b2.toNat <<< 16 ||| b3.toNat <<< 24 := by
    have h1 := ofLE_concat [b0] b1
    have h2 := ofLE_concat [b0, b1] b2
    have h3 := ofLE_concat [b0, b1, b2] b3
    simp only [List.cons_append, List.nil_append, List.length_cons, List.length_nil] at h1 h2 h3
    rw [h3, h2, h1]
    simp [ofLE]
  have hlt : ∀ (b : UInt8) (i : Nat), i ≤ 24 → b.toNat <<< i % 4294967296 = b.toNat <<< i := by
    intro b i hi
    apply Nat.mod_eq_of_lt
    rw [Nat.shiftLeft_eq]
    calc b.toNat * 2 ^ i
        ≤ b.toNat * 2 ^ 24 := Nat.mul_le_mul_left _ (Nat.pow_le_pow_right (by omega) hi)
      _ < 4294967296 := by have := b.toNat_lt; omega
  have h0 := hget 0
  rw [Nat.add_zero] at h0
  rw [readLittleEndian32, h0, hget 1, hget 2, hget 3, hor]
  simp [hlt]

/-- A field that lies inside the buffer is four of its bytes. -/
theorem readLittleEndian32_eq {buffer : Bytes} {offset : Nat} (h : offset + 4 ≤ buffer.length) :
    (readLittleEndian32 buffer offset).toNat = ofLE ((buffer.drop offset).take 4) := by
  have hbytes : ∃ b0 b1 b2 b3 rest, buffer.drop offset = b0 :: b1 :: b2 :: b3 :: rest := by
    have hlen : 4 ≤ (buffer.drop offset).length := by rw [List.length_drop]; omega
    match buffer.drop offset, hlen with
    | b0 :: b1 :: b2 :: b3 :: rest, _ => exact ⟨b0, b1, b2, b3, rest, rfl⟩
  obtain ⟨b0, b1, b2, b3, rest, hb⟩ := hbytes
  rw [readLittleEndian32_of_drop hb, hb]
  rfl

/-- Writing a field back gives the bytes it was read from. -/
theorem toLE_readLittleEndian32 {buffer : Bytes} {offset : Nat} (h : offset + 4 ≤ buffer.length) :
    toLE 4 (readLittleEndian32 buffer offset).toNat = (buffer.drop offset).take 4 := by
  have hlen : ((buffer.drop offset).take 4).length = 4 := by
    rw [List.length_take, List.length_drop]; omega
  have hle := toLE_ofLE ((buffer.drop offset).take 4)
  rw [hlen] at hle
  rw [readLittleEndian32_eq h, hle]

/-- What stands behind a field does not matter to it. -/
theorem readLittleEndian32_append_left {buffer : Bytes} {offset : Nat} (rest : Bytes)
    (h : offset + 4 ≤ buffer.length) :
    readLittleEndian32 (buffer ++ rest) offset = readLittleEndian32 buffer offset := by
  apply UInt32.toNat_inj.mp
  rw [readLittleEndian32_eq h, readLittleEndian32_eq (by rw [List.length_append]; omega),
    List.drop_append_of_le_length (by omega),
    List.take_append_of_le_length (by rw [List.length_drop]; omega)]

/-- A header field reads back as what was written there. -/
theorem readLittleEndian32_append (pre post : Bytes) (value : UInt32) :
    readLittleEndian32 (pre ++ toLE 4 value.toNat ++ post) pre.length = value := by
  apply UInt32.toNat_inj.mp
  have hdrop : (pre ++ toLE 4 value.toNat ++ post).drop pre.length
      = toLE 4 value.toNat ++ post := by
    simp [List.append_assoc]
  rw [readLittleEndian32_of_drop (hdrop.trans rfl)]
  exact ofLE_toLE (k := 4) (n := value.toNat) (by have := value.toNat_lt; omega)

/-- Reading further along a buffer is reading the rest of it from its start. -/
theorem readLittleEndian32_drop (buffer : Bytes) (offset i : Nat) :
    readLittleEndian32 (buffer.drop offset) i = readLittleEndian32 buffer (offset + i) := by
  have hget : ∀ j, (buffer.drop offset).getD j 0 = buffer.getD (offset + j) 0 := by
    intro j
    rw [List.getD_eq_getElem?_getD, List.getD_eq_getElem?_getD, List.getElem?_drop]
  simp only [readLittleEndian32, hget, Nat.add_assoc]

/-! ## The format is self-delimiting -/

theorem frame_eq (payload : Bytes) :
    frame payload
      = toLE 4 (UInt32.ofNat payload.length).toNat ++ toLE 4 (crc32 payload).toNat ++ payload := by
  rw [frame, appendLittleEndian32_eq, appendLittleEndian32_eq, List.nil_append]

@[simp] theorem length_frame (payload : Bytes) :
    (frame payload).length = kHeaderBytes + payload.length := by
  rw [frame_eq]
  simp [kHeaderBytes]
  omega

/-- The first field of a record is the length of its payload, as far as the field goes. -/
theorem readLittleEndian32_frame {payload : Bytes} (rest : Bytes)
    (h : payload.length < UInt32.size) :
    (readLittleEndian32 (frame payload ++ rest) 0).toNat = payload.length := by
  have hread : readLittleEndian32 (frame payload ++ rest) 0 = UInt32.ofNat payload.length := by
    have := readLittleEndian32_append []
      (toLE 4 (crc32 payload).toNat ++ payload ++ rest) (UInt32.ofNat payload.length)
    rw [frame_eq]
    simpa [List.append_assoc] using this
  rw [hread, UInt32.toNat_ofNat']
  exact Nat.mod_eq_of_lt h

/-- What may be in a record can be said in its header. -/
theorem lt_size_of_le {n : Nat} (h : n ≤ kMaxPayloadBytes) : n < UInt32.size :=
  Nat.lt_of_le_of_lt h (by decide)

/-- Parsing at an offset is parsing the rest of the buffer from its start. -/
theorem parseRecord_drop {buffer : Bytes} {offset : Nat} (h : offset ≤ buffer.length) :
    parseRecord buffer offset =
      match parseRecord (buffer.drop offset) 0 with
      | .ok payload next => .ok payload (offset + next)
      | .incomplete => .incomplete
      | .corrupt => .corrupt := by
  have hlen : ∀ n, (n > (buffer.drop offset).length) = (offset + n > buffer.length) := by
    intro n
    rw [List.length_drop]
    exact propext ⟨fun _ => by omega, fun _ => by omega⟩
  unfold parseRecord
  simp only [readLittleEndian32_drop, List.drop_drop, Nat.add_zero, Nat.zero_add, hlen,
    ← Nat.add_assoc]
  by_cases h1 : offset + kHeaderBytes > buffer.length
  · rw [if_pos h1, if_pos h1]
  rw [if_neg h1, if_neg h1]
  by_cases h2 : (readLittleEndian32 buffer offset).toNat > kMaxPayloadBytes
  · rw [if_pos h2, if_pos h2]
  rw [if_neg h2, if_neg h2]
  split
  · rfl
  · split
    · rfl
    · rw [Nat.add_assoc]

/-- A whole record parses to its payload. -/
theorem parseRecord_frame {payload : Bytes} (rest : Bytes)
    (h : payload.length ≤ kMaxPayloadBytes) :
    parseRecord (frame payload ++ rest) 0 = .ok payload (kHeaderBytes + payload.length) := by
  have hread0 := readLittleEndian32_frame rest (lt_size_of_le h)
  have hread4 : readLittleEndian32 (frame payload ++ rest) (0 + 4) = crc32 payload := by
    have := readLittleEndian32_append (toLE 4 (UInt32.ofNat payload.length).toNat)
      (payload ++ rest) (crc32 payload)
    rw [frame_eq]
    simpa [List.append_assoc] using this
  have hbody : ((frame payload ++ rest).drop (0 + kHeaderBytes)).take payload.length = payload := by
    have hhead : (toLE 4 (UInt32.ofNat payload.length).toNat
        ++ toLE 4 (crc32 payload).toNat).length = kHeaderBytes := by simp [kHeaderBytes]
    rw [frame_eq, List.append_assoc, Nat.zero_add, ← hhead, List.drop_left, List.take_left]
  unfold parseRecord
  simp only [hread0, hread4, hbody, List.length_append, length_frame]
  rw [if_neg (by omega), if_neg (by omega), if_neg (by omega), if_neg (by simp)]
  rw [Nat.zero_add]

/-- A record that is longer than the limit is not read, though it is what was written. -/
theorem parseRecord_long {payload : Bytes} (rest : Bytes)
    (hlong : kMaxPayloadBytes < payload.length)
    (h : payload.length < UInt32.size) : parseRecord (frame payload ++ rest) 0 = .corrupt := by
  unfold parseRecord
  simp only [readLittleEndian32_frame rest h, List.length_append, length_frame]
  rw [if_neg (by omega), if_pos hlong]

/-- A record cut short is incomplete, wherever it is cut. -/
theorem parseRecord_cut {payload q s : Bytes} (h : payload.length ≤ kMaxPayloadBytes)
    (hq : frame payload = q ++ s) (hs : s ≠ []) : parseRecord q 0 = .incomplete := by
  have hpos : 0 < s.length := List.length_pos_iff.mpr hs
  have hlen := congrArg List.length hq
  rw [length_frame, List.length_append] at hlen
  unfold parseRecord
  by_cases h8 : 0 + kHeaderBytes > q.length
  · rw [if_pos h8]
  rw [if_neg h8]
  -- the header survived the cut, so it still says how long the payload is
  have hread : (readLittleEndian32 q 0).toNat = payload.length := by
    rw [← readLittleEndian32_append_left s (by rw [kHeaderBytes] at h8; omega), ← hq]
    have := readLittleEndian32_frame [] (lt_size_of_le h)
    rwa [List.append_nil] at this
  simp only [hread]
  rw [if_neg (by omega), if_pos (by omega)]

/-- What a record that parses says of the buffer it is in. -/
theorem parseRecord_ok {buffer payload : Bytes} {offset next : Nat}
    (h : parseRecord buffer offset = .ok payload next) :
    payload.length ≤ kMaxPayloadBytes ∧ next = offset + kHeaderBytes + payload.length
      ∧ next ≤ buffer.length ∧ payload = (buffer.drop (offset + kHeaderBytes)).take payload.length
      ∧ (readLittleEndian32 buffer offset).toNat = payload.length
      ∧ readLittleEndian32 buffer (offset + 4) = crc32 payload := by
  unfold parseRecord at h
  split at h
  · exact absurd h (by simp)
  dsimp only at h
  split at h
  · exact absurd h (by simp)
  rename_i hmax
  split at h
  · exact absurd h (by simp)
  rename_i hroom
  split at h
  · exact absurd h (by simp)
  rename_i hcrc
  injection h with hp hn
  -- the payload is as long as the header says, since the buffer reaches that far
  have hlen : payload.length = (readLittleEndian32 buffer offset).toNat := by
    rw [← hp, List.length_take, List.length_drop]
    omega
  rw [hlen]
  refine ⟨by omega, hn.symm, by omega, hp.symm, rfl, ?_⟩
  rw [not_not, hp] at hcrc
  exact hcrc.symm

/-- Whatever parses is the framing of what it parsed to. -/
theorem frame_of_parseRecord {buffer payload : Bytes} {next : Nat}
    (h : parseRecord buffer 0 = .ok payload next) :
    payload.length ≤ kMaxPayloadBytes ∧ buffer = frame payload ++ buffer.drop next := by
  obtain ⟨hmax, hnext, hend, hbody, hlength, hcrc⟩ := parseRecord_ok h
  refine ⟨hmax, ?_⟩
  rw [kHeaderBytes, Nat.zero_add] at hnext hbody
  rw [Nat.zero_add] at hcrc
  -- the three parts of the record are three pieces of the buffer, one behind the other
  have hfield1 : toLE 4 (UInt32.ofNat payload.length).toNat = buffer.take 4 := by
    rw [← hlength, UInt32.ofNat_toNat, toLE_readLittleEndian32 (by omega), List.drop_zero]
  have hfield2 : toLE 4 (crc32 payload).toNat = (buffer.drop 4).take 4 := by
    rw [← hcrc, toLE_readLittleEndian32 (by omega)]
  have hrest : buffer.drop 8 = payload ++ buffer.drop next := by
    have hsplit := List.take_append_drop payload.length (buffer.drop 8)
    rw [← hbody, List.drop_drop, ← hnext] at hsplit
    exact hsplit.symm
  calc buffer
      = buffer.take 4 ++ ((buffer.drop 4).take 4 ++ (buffer.drop 4).drop 4) := by
        rw [List.take_append_drop, List.take_append_drop]
    _ = buffer.take 4 ++ ((buffer.drop 4).take 4 ++ (payload ++ buffer.drop next)) := by
        rw [List.drop_drop, hrest]
    _ = frame payload ++ buffer.drop next := by
        rw [frame_eq, hfield1, hfield2, List.append_assoc, List.append_assoc]

/-- The log's record format, as a code that can be read off a stream. -/
def recordCode : FrameCode Bytes UInt8 where
  Valid payload := payload.length ≤ kMaxPayloadBytes
  frame := frame
  parse buffer :=
    match parseRecord buffer 0 with
    | .ok payload next => .ok payload (buffer.drop next)
    | .incomplete => .incomplete
    | .corrupt => .corrupt
  frame_pos payload := by rw [length_frame, kHeaderBytes]; omega
  parse_frame := by
    intro payload s h
    rw [parseRecord_frame s h, ← length_frame]
    simp
  parse_cut := by
    intro payload q s h hq hs
    rw [parseRecord_cut h hq hs]
  ok_frame := by
    intro b s a h
    cases hp : parseRecord b 0 with
    | incomplete => rw [hp] at h; exact absurd h (by simp)
    | corrupt => rw [hp] at h; exact absurd h (by simp)
    | ok payload next =>
        rw [hp] at h
        injection h with h1 h2
        subst h1; subst h2
        exact frame_of_parseRecord hp

/-- Parsing at an offset is reading the code off the rest of the buffer. -/
theorem recordCode_parse_drop {buffer : Bytes} {offset : Nat} (h : offset ≤ buffer.length) :
    recordCode.parse (buffer.drop offset) =
      match parseRecord buffer offset with
      | .ok payload next => .ok payload (buffer.drop next)
      | .incomplete => .incomplete
      | .corrupt => .corrupt := by
  rw [parseRecord_drop h]
  show (match parseRecord (buffer.drop offset) 0 with
    | .ok payload next => Parsed.ok payload ((buffer.drop offset).drop next)
    | .incomplete => .incomplete
    | .corrupt => .corrupt) = _
  cases parseRecord (buffer.drop offset) 0 with
  | ok payload next => dsimp only; rw [List.drop_drop]
  | incomplete => rfl
  | corrupt => rfl

end Wal

end KvStore
