import KvStore.Wal.Record

/-!
# What a log payload says

`src/protocol/command.cpp`, `src/protocol/commands.cpp`, `src/store/mutation.h`.
A payload is one tag byte and what the tag calls for: a command (`SET`, `DEL`)
with its length-prefixed strings, or a marker that opens or closes a transaction
and carries the transaction's 64-bit id.
-/

namespace KvStore

/-- One change of the map, as a transaction buffers it. -/
structure Mutation where
  erase : Bool := false
  key : Bytes
  value : Bytes := []
  deriving DecidableEq, Repr

namespace Protocol

open Wal Lib

/-- The tag of a record that sets a key. -/
def kSetTag : UInt8 := 115  -- 's'

/-- The tag of a record that deletes a key. -/
def kDelTag : UInt8 := 100  -- 'd'

/-- The tag in front of a transaction's records. -/
def kBeginTag : UInt8 := 98  -- 'b'

/-- The tag behind them. -/
def kCommitTag : UInt8 := 99  -- 'c'

/-- `SetCommand` and `DelCommand`. -/
inductive Command where
  | set (key value : Bytes)
  | del (key : Bytes)
  deriving DecidableEq, Repr

/-! ## Writing -/

/-- A word, little-endian. -/
def appendU32 (out : Bytes) (value : UInt32) : Bytes := appendLittleEndian32 out value

/-- A text with its length in front. -/
def appendBlob (out blob : Bytes) : Bytes :=
  appendU32 out (UInt32.ofNat blob.length) ++ blob

/-- The loop over `shift = 0, 8, …, 56`. -/
def appendU64 (out : Bytes) (value : UInt64) : Bytes :=
  out ++ (List.range 8).map fun i => ((value >>> UInt64.ofNat (8 * i)) &&& 0xFF).toUInt8

/-- `Command::serialize`. -/
def Command.serialize : Command → Bytes
  | .set key value => appendBlob (appendBlob [kSetTag] key) value
  | .del key => appendBlob [kDelTag] key

/-- What the command is to a map. -/
def Command.toMutation : Command → Mutation
  | .set key value => { erase := false, key := key, value := value }
  | .del key => { erase := true, key := key }

/-- The record in front of those of a transaction. -/
def serializeBeginMarker (txnId : UInt64) : Bytes := appendU64 [kBeginTag] txnId

/-- The record behind them. -/
def serializeCommitMarker (txnId : UInt64) : Bytes := appendU64 [kCommitTag] txnId

/-! ## Reading -/

/-- A word at an offset, and the offset behind it. -/
def readU32 (data : Bytes) (offset : Nat) : Option (UInt32 × Nat) :=
  if offset + 4 > data.length then none
  else some (readLittleEndian32 data offset, offset + 4)

/-- A text with its length in front, and the offset behind it. -/
def readBlob (data : Bytes) (offset : Nat) : Option (Bytes × Nat) := do
  let (length, offset) ← readU32 data offset
  if offset + length.toNat > data.length then none
  else some ((data.drop offset).take length.toNat, offset + length.toNat)

/-- A record that sets or deletes a key; nothing may be left of the payload. -/
def deserializeCommand (payload : Bytes) : Option Command :=
  match payload with
  | [] => none
  | tag :: _ =>
      if tag = kSetTag then do
        let (key, offset) ← readBlob payload 1
        let (value, offset) ← readBlob payload offset
        if offset ≠ payload.length then none else some (.set key value)
      else if tag = kDelTag then do
        let (key, offset) ← readBlob payload 1
        if offset ≠ payload.length then none else some (.del key)
      else none

/-- The number of a transaction in a record with this tag. -/
def parseMarker (payload : Bytes) (expectedTag : UInt8) : Option UInt64 :=
  if payload.length ≠ 9 ∨ payload.getD 0 0 ≠ expectedTag then none
  else some ((List.range 8).foldl
    (fun value i => value ||| ((payload.getD (1 + i) 0).toUInt64 <<< UInt64.ofNat (i * 8))) 0)

/-- `parseBeginMarker`. -/
def parseBeginMarker (payload : Bytes) : Option UInt64 := parseMarker payload kBeginTag

/-- `parseCommitMarker`. -/
def parseCommitMarker (payload : Bytes) : Option UInt64 := parseMarker payload kCommitTag

/-! ## Commands read back -/

theorem appendBlob_eq (out blob : Bytes) :
    appendBlob out blob = out ++ (toLE 4 (UInt32.ofNat blob.length).toNat ++ blob) := by
  rw [appendBlob, appendU32, appendLittleEndian32_eq, List.append_assoc]

@[simp] theorem length_appendBlob (out blob : Bytes) :
    (appendBlob out blob).length = out.length + 4 + blob.length := by
  rw [appendBlob_eq]
  simp
  omega

/-- A blob reads back as what was appended, and leaves the reader behind it. -/
theorem readBlob_append (pre blob post : Bytes) (h : blob.length < 2 ^ 32) :
    readBlob (appendBlob pre blob ++ post) pre.length
      = some (blob, (appendBlob pre blob).length) := by
  have hlen : (UInt32.ofNat blob.length).toNat = blob.length := by
    rw [UInt32.toNat_ofNat']
    exact Nat.mod_eq_of_lt h
  have hread : readLittleEndian32 (appendBlob pre blob ++ post) pre.length
      = UInt32.ofNat blob.length := by
    have := readLittleEndian32_append pre (blob ++ post) (UInt32.ofNat blob.length)
    rw [appendBlob_eq]
    simpa [List.append_assoc] using this
  have hbody : ((appendBlob pre blob ++ post).drop (pre.length + 4)).take blob.length = blob := by
    have hhead : (pre ++ toLE 4 (UInt32.ofNat blob.length).toNat).length = pre.length + 4 := by simp
    rw [appendBlob_eq, ← List.append_assoc, List.append_assoc, ← hhead, List.drop_left,
      List.take_left]
  have hroom : ¬ pre.length + 4 > (appendBlob pre blob ++ post).length := by
    rw [List.length_append, length_appendBlob]; omega
  have hroom' : ¬ pre.length + 4 + blob.length > (appendBlob pre blob ++ post).length := by
    rw [List.length_append, length_appendBlob]; omega
  have hu32 : readU32 (appendBlob pre blob ++ post) pre.length
      = some (UInt32.ofNat blob.length, pre.length + 4) := by
    rw [readU32, if_neg hroom, hread]
  rw [readBlob, hu32, Option.bind_eq_bind, Option.bind_some]
  simp only [hlen, hbody]
  rw [if_neg hroom', length_appendBlob]

theorem serialize_cons (c : Command) :
    ∃ rest, c.serialize = (match c with | .set .. => kSetTag | .del .. => kDelTag) :: rest := by
  cases c with
  | set key value => exact ⟨_, by simp only [Command.serialize, appendBlob_eq]; rfl⟩
  | del key => exact ⟨_, by simp only [Command.serialize, appendBlob_eq]; rfl⟩

/-- The lengths of the strings fit into the fields in front of them. -/
def Command.Short : Command → Prop
  | .set key value => key.length < 2 ^ 32 ∧ value.length < 2 ^ 32
  | .del key => key.length < 2 ^ 32

instance (c : Command) : Decidable c.Short :=
  match c with
  | .set key value => inferInstanceAs (Decidable (key.length < 2 ^ 32 ∧ value.length < 2 ^ 32))
  | .del key => inferInstanceAs (Decidable (key.length < 2 ^ 32))

/-- **A serialized command reads back as itself.** -/
theorem Command.Short.deserialize {c : Command} (h : c.Short) :
    deserializeCommand c.serialize = some c := by
  cases c with
  | set key value =>
      have hkey : readBlob (appendBlob (appendBlob [kSetTag] key) value) 1
          = some (key, (appendBlob [kSetTag] key).length) := by
        rw [appendBlob_eq (appendBlob [kSetTag] key)]
        exact readBlob_append [kSetTag] key _ h.1
      -- the value begins where the key ends
      have hvalue : readBlob (appendBlob (appendBlob [kSetTag] key) value)
          (appendBlob [kSetTag] key).length
          = some (value, (appendBlob (appendBlob [kSetTag] key) value).length) := by
        have := readBlob_append (appendBlob [kSetTag] key) value [] h.2
        rwa [List.append_nil] at this
      obtain ⟨rest, hcons⟩ := serialize_cons (.set key value)
      simp only [Command.serialize] at hcons ⊢
      rw [deserializeCommand.eq_def, hcons]
      dsimp only
      rw [if_pos rfl, ← hcons, hkey, Option.bind_eq_bind, Option.bind_some]
      dsimp only
      rw [hvalue, Option.bind_some, if_neg (by simp)]
  | del key =>
      have hkey : readBlob (appendBlob [kDelTag] key) 1
          = some (key, (appendBlob [kDelTag] key).length) := by
        have := readBlob_append [kDelTag] key [] h
        rwa [List.append_nil] at this
      obtain ⟨rest, hcons⟩ := serialize_cons (.del key)
      simp only [Command.serialize] at hcons ⊢
      rw [deserializeCommand.eq_def, hcons]
      dsimp only
      rw [if_neg (by decide), if_pos rfl, ← hcons, hkey, Option.bind_eq_bind, Option.bind_some,
        if_neg (by simp)]

/-- What fits into a record has strings that fit into it. -/
theorem deserializeCommand_serialize {c : Command}
    (h : c.serialize.length ≤ kMaxPayloadBytes) : deserializeCommand c.serialize = some c := by
  have hmax : kMaxPayloadBytes < 2 ^ 32 := by decide
  refine Command.Short.deserialize ?_
  cases c with
  | set key value =>
      rw [Command.serialize, length_appendBlob, length_appendBlob] at h
      exact ⟨by omega, by omega⟩
  | del key =>
      rw [Command.serialize, length_appendBlob] at h
      show key.length < 2 ^ 32
      omega

/-! ## Payloads of commands -/

/-- A blob is no longer than its length field can say. -/
theorem length_readBlob {data blob : Bytes} {offset next : Nat}
    (h : readBlob data offset = some (blob, next)) : blob.length < 2 ^ 32 := by
  unfold readBlob readU32 at h
  split at h
  · exact absurd h (by simp)
  · rw [Option.bind_eq_bind, Option.bind_some] at h
    dsimp only at h
    split at h
    · exact absurd h (by simp)
    · cases h
      have hfield := (readLittleEndian32 data offset).toNat_lt
      rw [List.length_take]
      omega

/-- Appending a blob to what stands in front of it gives back the data up to its end. -/
theorem appendBlob_readBlob {data blob : Bytes} {offset next : Nat}
    (h : readBlob data offset = some (blob, next)) :
    appendBlob (data.take offset) blob = data.take next := by
  unfold readBlob readU32 at h
  split at h
  · exact absurd h (by simp)
  · rename_i hfield
    rw [Option.bind_eq_bind, Option.bind_some] at h
    dsimp only at h
    split at h
    · exact absurd h (by simp)
    · rename_i hroom
      cases h
      have hlen : ((data.drop (offset + 4)).take (readLittleEndian32 data offset).toNat).length
          = (readLittleEndian32 data offset).toNat := by
        rw [List.length_take, List.length_drop]
        omega
      rw [appendBlob_eq, hlen, UInt32.ofNat_toNat, toLE_readLittleEndian32 (by omega),
        ← List.append_assoc, ← List.take_add, ← List.take_add]

/-- What a command was read from: the tag, then the blobs up to the end. -/
theorem deserializeCommand_blobs {payload : Bytes} {c : Command}
    (h : deserializeCommand payload = some c) :
    match c with
    | .set key value => ∃ offset, payload.take 1 = [kSetTag]
        ∧ readBlob payload 1 = some (key, offset)
        ∧ readBlob payload offset = some (value, payload.length)
    | .del key => payload.take 1 = [kDelTag] ∧ readBlob payload 1 = some (key, payload.length) := by
  cases payload with
  | nil => exact absurd h (by simp [deserializeCommand])
  | cons tag rest =>
      unfold deserializeCommand at h
      dsimp only at h
      by_cases hset : tag = kSetTag
      · rw [if_pos hset] at h
        obtain ⟨⟨key, offset⟩, hkey, h⟩ := Option.bind_eq_some_iff.mp h
        obtain ⟨⟨value, next⟩, hvalue, h⟩ := Option.bind_eq_some_iff.mp h
        dsimp only at h hvalue
        -- bytes behind the last blob are not accepted
        by_cases hend : next = (tag :: rest).length
        · rw [if_neg (not_not.mpr hend)] at h
          cases h
          rw [hend] at hvalue
          exact ⟨offset, congrArg (fun t => [t]) hset, hkey, hvalue⟩
        · rw [if_pos hend] at h
          exact absurd h (by simp)
      · rw [if_neg hset] at h
        by_cases hdel : tag = kDelTag
        · rw [if_pos hdel] at h
          obtain ⟨⟨key, next⟩, hkey, h⟩ := Option.bind_eq_some_iff.mp h
          dsimp only at h
          by_cases hend : next = (tag :: rest).length
          · rw [if_neg (not_not.mpr hend)] at h
            cases h
            rw [hend] at hkey
            exact ⟨congrArg (fun t => [t]) hdel, hkey⟩
          · rw [if_pos hend] at h
            exact absurd h (by simp)
        · rw [if_neg hdel] at h
          exact absurd h (by simp)

theorem short_deserializeCommand {payload : Bytes} {c : Command}
    (h : deserializeCommand payload = some c) : c.Short := by
  have hblobs := deserializeCommand_blobs h
  cases c with
  | set key value =>
      obtain ⟨_, -, hkey, hvalue⟩ := hblobs
      exact ⟨length_readBlob hkey, length_readBlob hvalue⟩
  | del key => exact length_readBlob hblobs.2

/-- **What reads as a command is the command, serialized.** -/
theorem serialize_deserializeCommand {payload : Bytes} {c : Command}
    (h : deserializeCommand payload = some c) : c.serialize = payload := by
  have hblobs := deserializeCommand_blobs h
  cases c with
  | set key value =>
      obtain ⟨offset, htag, hkey, hvalue⟩ := hblobs
      rw [Command.serialize, ← htag, appendBlob_readBlob hkey, appendBlob_readBlob hvalue,
        List.take_length]
  | del key =>
      obtain ⟨htag, hkey⟩ := hblobs
      rw [Command.serialize, ← htag, appendBlob_readBlob hkey, List.take_length]

/-- A command is never taken for a marker. -/
theorem parseMarker_serialize {c : Command} {tag : UInt8} (h1 : tag ≠ kSetTag)
    (h2 : tag ≠ kDelTag) : parseMarker c.serialize tag = none := by
  obtain ⟨rest, hcons⟩ := serialize_cons c
  rw [parseMarker, hcons]
  refine if_pos (Or.inr ?_)
  cases c with
  | set key value => exact Ne.symm h1
  | del key => exact Ne.symm h2

/-! ## Markers read back -/

theorem appendU64_eq (out : Bytes) (value : UInt64) :
    appendU64 out value = out ++ toLE 8 value.toNat := by
  have hff : ∀ n : Nat, n &&& 255 = n % 256 := fun n => Nat.and_two_pow_sub_one_eq_mod n 8
  rw [appendU64]
  simp only [toLE, Nat.div_div_eq_div_mul, List.range, List.range.loop, List.map_cons, List.map_nil,
    List.append_cancel_left_eq, List.cons.injEq, and_true]
  refine ⟨?_, ?_, ?_, ?_, ?_, ?_, ?_, ?_⟩ <;>
    · apply UInt8.toNat_inj.mp
      simp [hff, Nat.shiftRight_eq_div_pow]

/-- Eight bytes gathered with shifts and ors are the number they spell. -/
theorem parseMarker_cons (tag b0 b1 b2 b3 b4 b5 b6 b7 : UInt8) :
    parseMarker [tag, b0, b1, b2, b3, b4, b5, b6, b7] tag
      = some (UInt64.ofNat (ofLE [b0, b1, b2, b3, b4, b5, b6, b7])) := by
  have hor : ofLE [b0, b1, b2, b3, b4, b5, b6, b7]
      = b0.toNat ||| b1.toNat <<< 8 ||| b2.toNat <<< 16 ||| b3.toNat <<< 24
        ||| b4.toNat <<< 32 ||| b5.toNat <<< 40 ||| b6.toNat <<< 48 ||| b7.toNat <<< 56 := by
    have h1 := ofLE_concat [b0] b1
    have h2 := ofLE_concat [b0, b1] b2
    have h3 := ofLE_concat [b0, b1, b2] b3
    have h4 := ofLE_concat [b0, b1, b2, b3] b4
    have h5 := ofLE_concat [b0, b1, b2, b3, b4] b5
    have h6 := ofLE_concat [b0, b1, b2, b3, b4, b5] b6
    have h7 := ofLE_concat [b0, b1, b2, b3, b4, b5, b6] b7
    simp only [List.cons_append, List.nil_append, List.length_cons, List.length_nil]
      at h1 h2 h3 h4 h5 h6 h7
    rw [h7, h6, h5, h4, h3, h2, h1]
    simp [ofLE]
  -- no shift goes over the edge of 64 bits
  have hlt : ∀ (b : UInt8) (i : Nat), i ≤ 56 →
      b.toNat <<< i % 18446744073709551616 = b.toNat <<< i := by
    intro b i hi
    apply Nat.mod_eq_of_lt
    rw [Nat.shiftLeft_eq]
    calc b.toNat * 2 ^ i
        ≤ b.toNat * 2 ^ 56 := Nat.mul_le_mul_left _ (Nat.pow_le_pow_right (by omega) hi)
      _ < 18446744073709551616 := by have := b.toNat_lt; omega
  have hbound : ofLE [b0, b1, b2, b3, b4, b5, b6, b7] < 18446744073709551616 := by
    have := ofLE_lt [b0, b1, b2, b3, b4, b5, b6, b7]
    simpa using this
  rw [parseMarker, if_neg (by simp)]
  refine congrArg some (UInt64.toNat_inj.mp ?_)
  rw [UInt64.toNat_ofNat', Nat.mod_eq_of_lt hbound, hor]
  simp [List.range, List.range.loop, hlt]

/-- A marker reads back as its id, for its own tag. -/
theorem parseMarker_appendU64 (tag : UInt8) (txnId : UInt64) :
    parseMarker (appendU64 [tag] txnId) tag = some txnId := by
  have hlen := length_toLE 8 txnId.toNat
  have hnat : ofLE (toLE 8 txnId.toNat) = txnId.toNat :=
    ofLE_toLE (by have := txnId.toNat_lt; omega)
  rw [appendU64_eq]
  match hbs : toLE 8 txnId.toNat, hlen with
  | [b0, b1, b2, b3, b4, b5, b6, b7], _ =>
      rw [hbs] at hnat
      rw [List.singleton_append, parseMarker_cons, hnat]
      simp

/-- A marker is not taken for the other kind. -/
theorem parseMarker_ne {tag tag' : UInt8} (txnId : UInt64) (h : tag ≠ tag') :
    parseMarker (appendU64 [tag] txnId) tag' = none := by
  rw [parseMarker, appendU64_eq]
  exact if_pos (Or.inr h)

/-- What reads as a marker is the marker, serialized. -/
theorem appendU64_parseMarker {payload : Bytes} {tag : UInt8} {txnId : UInt64}
    (h : parseMarker payload tag = some txnId) : appendU64 [tag] txnId = payload := by
  have hshape : payload.length = 9 ∧ payload.getD 0 0 = tag := by
    unfold parseMarker at h
    split at h
    · exact absurd h (by simp)
    · rename_i hno
      exact ⟨not_not.mp fun hl => hno (.inl hl), not_not.mp fun ht => hno (.inr ht)⟩
  match payload, hshape with
  | [t, b0, b1, b2, b3, b4, b5, b6, b7], ⟨_, ht⟩ =>
      cases (show t = tag from ht)
      rw [parseMarker_cons] at h
      cases h
      have hlt := ofLE_lt [b0, b1, b2, b3, b4, b5, b6, b7]
      rw [appendU64_eq, UInt64.toNat_ofNat', Nat.mod_eq_of_lt (by simpa using hlt)]
      exact congrArg (tag :: ·) (toLE_ofLE [b0, b1, b2, b3, b4, b5, b6, b7])

/-- A marker is not taken for a command. -/
theorem deserializeCommand_marker {tag : UInt8} (h1 : tag ≠ kSetTag) (h2 : tag ≠ kDelTag)
    (txnId : UInt64) : deserializeCommand (appendU64 [tag] txnId) = none := by
  rw [appendU64_eq, List.singleton_append, deserializeCommand, if_neg h1, if_neg h2]

@[simp] theorem deserializeCommand_begin (txnId : UInt64) :
    deserializeCommand (serializeBeginMarker txnId) = none :=
  deserializeCommand_marker (by decide) (by decide) txnId

@[simp] theorem deserializeCommand_commit (txnId : UInt64) :
    deserializeCommand (serializeCommitMarker txnId) = none :=
  deserializeCommand_marker (by decide) (by decide) txnId

@[simp] theorem parseBeginMarker_begin (txnId : UInt64) :
    parseBeginMarker (serializeBeginMarker txnId) = some txnId := parseMarker_appendU64 ..

@[simp] theorem parseCommitMarker_commit (txnId : UInt64) :
    parseCommitMarker (serializeCommitMarker txnId) = some txnId := parseMarker_appendU64 ..

@[simp] theorem parseBeginMarker_commit (txnId : UInt64) :
    parseBeginMarker (serializeCommitMarker txnId) = none := parseMarker_ne _ (by decide)

@[simp] theorem parseCommitMarker_begin (txnId : UInt64) :
    parseCommitMarker (serializeBeginMarker txnId) = none := parseMarker_ne _ (by decide)

@[simp] theorem parseBeginMarker_serialize (c : Command) :
    parseBeginMarker c.serialize = none := parseMarker_serialize (by decide) (by decide)

@[simp] theorem parseCommitMarker_serialize (c : Command) :
    parseCommitMarker c.serialize = none := parseMarker_serialize (by decide) (by decide)

end Protocol

end KvStore
