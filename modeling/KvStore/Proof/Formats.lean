import KvStore.Store.Meaning

/-!
# The two codes of the log

A log file is a sequence of frames, and what a frame carries is one of four
kinds of payload. Both codes are exact. A frame is recognised wherever it stands,
no part of it is taken for a whole one, and what was read as a frame is the frame
of what was read; a payload is taken for at most one record, and no other payload
is taken for that one.

The follower needs the second half of each: it frames what it has parsed once
more, and its file must come out byte for byte as the leader's.
-/

namespace KvStore

open Lib Wal Protocol

/-! ## Frames -/

namespace Wal

/-- A frame is found where it stands. -/
theorem parseRecord_frame_at {payload : Bytes} (p s : Bytes)
    (h : payload.length ≤ kMaxPayloadBytes) :
    parseRecord (p ++ frame payload ++ s) p.length
      = .ok payload (p.length + 8 + payload.length) := by
  have hdrop : (p ++ frame payload ++ s).drop p.length = frame payload ++ s := by
    rw [List.append_assoc, List.drop_left]
  rw [parseRecord_drop (by simp), hdrop, parseRecord_frame s h]
  dsimp only
  rw [kHeaderBytes, Nat.add_assoc]

/-- A part of a frame is not one, wherever it stands. -/
theorem parseRecord_cut_at {payload q : Bytes} (p : Bytes) (h : payload.length ≤ kMaxPayloadBytes)
    (hq : q <+: frame payload) (hne : q ≠ frame payload) :
    parseRecord (p ++ q) p.length = .incomplete := by
  obtain ⟨s, hs⟩ := hq
  have hrest : s ≠ [] := by
    intro hnil
    rw [hnil, List.append_nil] at hs
    exact hne hs
  rw [parseRecord_drop (by simp), List.drop_left, parseRecord_cut h hs.symm hrest]

/-- What was read as a record are the bytes of its frame. -/
theorem frame_of_parseRecord_at {buffer payload : Bytes} {offset next : Nat}
    (h : parseRecord buffer offset = .ok payload next) :
    next ≤ buffer.length ∧ next = offset + 8 + payload.length
      ∧ (buffer.drop offset).take (next - offset) = frame payload := by
  obtain ⟨_, hnext, hend, -⟩ := parseRecord_ok h
  rw [kHeaderBytes] at hnext
  have hle : offset ≤ buffer.length := by omega
  rw [parseRecord_drop hle] at h
  cases hread : parseRecord (buffer.drop offset) 0 with
  | incomplete => rw [hread] at h; exact absurd h (by simp)
  | corrupt => rw [hread] at h; exact absurd h (by simp)
  | ok payload' next' =>
      rw [hread] at h
      cases h
      have hframe := (frame_of_parseRecord hread).2
      have hlen : (frame payload).length = offset + next' - offset := by
        rw [length_frame, kHeaderBytes]
        omega
      refine ⟨hend, hnext, ?_⟩
      rw [hframe, List.take_left' hlen]

/--
**Framing is exact and self-delimiting.**

A frame parses to its payload between any two byte strings, a proper part of one
is incomplete behind any byte string, and whatever parses is the frame of the
payload it parsed to.
-/
theorem frame_self_delimiting :
    (∀ payload : Bytes, payload.length ≤ kMaxPayloadBytes → ∀ p s : Bytes,
        parseRecord (p ++ frame payload ++ s) p.length
          = .ok payload (p.length + 8 + payload.length))
      ∧ (∀ payload : Bytes, payload.length ≤ kMaxPayloadBytes →
          ∀ q : Bytes, q <+: frame payload → q ≠ frame payload → ∀ p : Bytes,
            parseRecord (p ++ q) p.length = .incomplete)
      ∧ ∀ (buffer payload : Bytes) (offset next : Nat), offset ≤ buffer.length →
          parseRecord buffer offset = .ok payload next →
            offset ≤ next ∧ next ≤ buffer.length
              ∧ (buffer.drop offset).take (next - offset) = frame payload := by
  refine ⟨fun _ h p s => parseRecord_frame_at p s h,
    fun _ h _ hq hne p => parseRecord_cut_at p h hq hne, ?_⟩
  intro buffer payload offset next _ h
  obtain ⟨hend, hnext, hbytes⟩ := frame_of_parseRecord_at h
  exact ⟨by omega, hend, hbytes⟩

/-- One byte framed behind another one, whole and cut short. -/
theorem frame_self_delimiting_one :
    parseRecord ([7] ++ frame [65] ++ [8, 9]) 1 = .ok [65] 10
      ∧ parseRecord ([7] ++ (frame [65]).take 5) 1 = .incomplete
      ∧ (([7] ++ frame [65] ++ [8, 9] : Bytes).drop 1).take (10 - 1) = frame [65] := by
  have hread : parseRecord ([7] ++ frame [65] ++ [8, 9]) 1 = .ok [65] 10 :=
    frame_self_delimiting.1 [65] (by decide) [7] [8, 9]
  have hne : (frame [65]).take 5 ≠ frame [65] := by
    intro h
    have := congrArg List.length h
    rw [List.length_take, length_frame] at this
    exact absurd this (by decide)
  exact ⟨hread,
    frame_self_delimiting.2.1 [65] (by decide) _ (List.take_prefix 5 _) hne [7],
    (frame_self_delimiting.2.2 _ _ _ _ (by simp) hread).2.2⟩

end Wal

/-! ## Payloads -/

namespace LogRecord

/-- What the leader writes for a record. -/
def serialize : LogRecord → Bytes
  | .begin txnId => serializeBeginMarker txnId
  | .commit txnId => serializeCommitMarker txnId
  | .command c => c.serialize

/-- Its strings fit into their length fields; a marker has none. -/
def Short : LogRecord → Prop
  | .begin _ => True
  | .commit _ => True
  | .command c => c.Short

/-- One of the three parsers accepts the payload and returns this record. -/
def ReadFrom (payload : Bytes) : LogRecord → Prop
  | .begin txnId => parseBeginMarker payload = some txnId
  | .commit txnId => parseCommitMarker payload = some txnId
  | .command c => deserializeCommand payload = some c

theorem Short.readFrom {r : LogRecord} (h : r.Short) : r.ReadFrom r.serialize := by
  cases r with
  | begin txnId => exact parseBeginMarker_begin txnId
  | commit txnId => exact parseCommitMarker_commit txnId
  | command c => exact Command.Short.deserialize h

theorem ReadFrom.serialize {payload : Bytes} {r : LogRecord} (h : r.ReadFrom payload) :
    r.serialize = payload := by
  cases r with
  | begin txnId => exact appendU64_parseMarker h
  | commit txnId => exact appendU64_parseMarker h
  | command c => exact serialize_deserializeCommand h

theorem ReadFrom.short {payload : Bytes} {r : LogRecord} (h : r.ReadFrom payload) : r.Short := by
  cases r with
  | begin txnId => trivial
  | commit txnId => trivial
  | command c => exact short_deserializeCommand h

/-- The tags keep the three parsers apart. -/
theorem ReadFrom.unique {payload : Bytes} {r r' : LogRecord} (h : r.ReadFrom payload)
    (h' : r'.ReadFrom payload) : r = r' := by
  have hpayload := h.serialize
  subst hpayload
  cases r with
  | begin txnId =>
      cases r' with
      | begin txnId' => exact congrArg _ (Option.some.inj (h.symm.trans h'))
      | commit txnId' => exact absurd h' (by simp [ReadFrom, LogRecord.serialize])
      | command c' => exact absurd h' (by simp [ReadFrom, LogRecord.serialize])
  | commit txnId =>
      cases r' with
      | begin txnId' => exact absurd h' (by simp [ReadFrom, LogRecord.serialize])
      | commit txnId' => exact congrArg _ (Option.some.inj (h.symm.trans h'))
      | command c' => exact absurd h' (by simp [ReadFrom, LogRecord.serialize])
  | command c =>
      cases r' with
      | begin txnId' => exact absurd h' (by simp [ReadFrom, LogRecord.serialize])
      | commit txnId' => exact absurd h' (by simp [ReadFrom, LogRecord.serialize])
      | command c' => exact congrArg _ (Option.some.inj (h.symm.trans h'))

/--
**Records and accepted payloads correspond one to one.**

A serialized record is accepted by one parser only, which returns the record. A
payload some parser accepts is the serialization of what was returned, so it is
accepted by no other parser, and no other payload gives the same record.
-/
theorem payloads_bijective :
    (∀ r : LogRecord, r.Short → ∀ r' : LogRecord, r'.ReadFrom r.serialize ↔ r' = r)
      ∧ (∀ (payload : Bytes) (r : LogRecord), r.ReadFrom payload →
          r.Short ∧ r.serialize = payload)
      ∧ (∀ (payload : Bytes) (r r' : LogRecord), r.ReadFrom payload → r'.ReadFrom payload →
          r = r')
      ∧ ∀ (payload payload' : Bytes) (r : LogRecord), r.ReadFrom payload →
          r.ReadFrom payload' → payload = payload' := by
  refine ⟨?_, fun _ _ h => ⟨h.short, h.serialize⟩, fun _ _ _ h h' => h.unique h',
    fun _ _ _ h h' => h.serialize.symm.trans h'.serialize⟩
  intro r hr r'
  constructor
  · intro h
    exact h.unique hr.readFrom
  · intro h
    rw [h]
    exact hr.readFrom

/-- A short `SET` and a marker whose id is as large as it can be. -/
theorem payloads_bijective_pair :
    deserializeCommand (Command.set [107] []).serialize = some (.set [107] [])
      ∧ parseCommitMarker (serializeCommitMarker 0xFFFFFFFFFFFFFFFF)
        = some 0xFFFFFFFFFFFFFFFF :=
  ⟨(payloads_bijective.1 (.command (.set [107] [])) ⟨by decide, by decide⟩ _).mpr rfl,
    (payloads_bijective.1 (.commit 0xFFFFFFFFFFFFFFFF) trivial _).mpr rfl⟩

end LogRecord

end KvStore
