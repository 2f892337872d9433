import KvStore.Wal.Checksum
import KvStore.Wal.WriteAheadLog

/-!
# Damage is found and cut off

A byte of a log file may come back from the disk as another one. Where the damage
lies in four consecutive bytes of one payload, or in the checksum in front of it,
replay finds it: the records before the damaged one are delivered, and the file
is cut where the damaged one began.

The argument is about two frames. A damaged record that still parsed would be the
frame of another payload of the same length; two such frames that agree on the
payload are the same, and two that agree on the checksum differ in more than four
consecutive bytes.
-/

namespace KvStore.Wal

open Lib

/-! ## Damage -/

/-- Some bytes between `lo` and `hi` are other bytes; the rest is as it was. -/
structure AltersWithin (lo hi : Nat) (record record' : Bytes) : Prop where
  length_eq : record'.length = record.length
  same : ∀ n, ¬ (lo ≤ n ∧ n < hi) → record'[n]? = record[n]?

/-- What may happen to a record: to its checksum field, or to four bytes of its payload. -/
def Damaged (record record' : Bytes) : Prop :=
  record' ≠ record
    ∧ (AltersWithin 4 kHeaderBytes record record'
      ∨ ∃ k, kHeaderBytes ≤ k ∧ AltersWithin k (k + 4) record record')

namespace AltersWithin

variable {lo hi : Nat} {record record' : Bytes}

theorem take_eq (h : AltersWithin lo hi record record') {n : Nat} (hn : n ≤ lo) :
    record'.take n = record.take n := by
  refine List.ext_getElem? fun i => ?_
  rw [List.getElem?_take, List.getElem?_take]
  split
  · exact h.same i (by omega)
  · rfl

theorem drop_eq (h : AltersWithin lo hi record record') {n : Nat} (hn : hi ≤ n) :
    record'.drop n = record.drop n := by
  refine List.ext_getElem? fun i => ?_
  rw [List.getElem?_drop, List.getElem?_drop]
  exact h.same (n + i) (by omega)

/-- Behind the first `n` bytes. -/
theorem drop (h : AltersWithin lo hi record record') {n : Nat} (hn : n ≤ lo) :
    AltersWithin (lo - n) (hi - n) (record.drop n) (record'.drop n) where
  length_eq := by rw [List.length_drop, List.length_drop, h.length_eq]
  same i hi := by
    rw [List.getElem?_drop, List.getElem?_drop]
    exact h.same (n + i) (by omega)

/-- The bytes in question, with what stands around them. -/
theorem split (h : AltersWithin lo hi record record') (hle : lo ≤ hi) :
    ∃ before burst burst' after : Bytes, record = before ++ burst ++ after
      ∧ record' = before ++ burst' ++ after ∧ burst'.length = burst.length
      ∧ burst.length ≤ hi - lo := by
  have hparts : ∀ r : Bytes, r = r.take lo ++ (r.drop lo).take (hi - lo) ++ r.drop hi := by
    intro r
    have hrest : (r.drop lo).drop (hi - lo) = r.drop hi := by
      rw [List.drop_drop, Nat.add_sub_cancel' hle]
    rw [List.append_assoc, ← hrest, List.take_append_drop, List.take_append_drop]
  refine ⟨record.take lo, (record.drop lo).take (hi - lo), (record'.drop lo).take (hi - lo),
    record.drop hi, hparts record, ?_, ?_, ?_⟩
  · rw [← h.take_eq le_rfl, ← h.drop_eq le_rfl]
    exact hparts record'
  · rw [List.length_take, List.length_take, List.length_drop, List.length_drop, h.length_eq]
  · rw [List.length_take]
    exact min_le_left _ _

theorem of_append {before burst burst' after : Bytes} (hlen : burst'.length = burst.length)
    {n : Nat} (hn : burst.length ≤ n) :
    AltersWithin before.length (before.length + n) (before ++ burst ++ after)
      (before ++ burst' ++ after) where
  length_eq := by simp [hlen]
  same i hi := by
    by_cases hbefore : i < before.length
    · rw [List.append_assoc, List.append_assoc, List.getElem?_append_left hbefore,
        List.getElem?_append_left hbefore]
    · have hbehind : (before ++ burst).length ≤ i := by rw [List.length_append]; omega
      have hbehind' : (before ++ burst').length ≤ i := by rw [List.length_append, hlen]; omega
      rw [List.getElem?_append_right hbehind, List.getElem?_append_right hbehind',
        List.length_append, List.length_append, hlen]

end AltersWithin

/-! ## A damaged record does not parse -/

theorem readLittleEndian32_take {buffer : Bytes} {offset n : Nat} (h : offset + 4 ≤ n)
    (hn : n ≤ buffer.length) :
    readLittleEndian32 (buffer.take n) offset = readLittleEndian32 buffer offset := by
  have happ : readLittleEndian32 (buffer.take n ++ buffer.drop n) offset
      = readLittleEndian32 (buffer.take n) offset :=
    readLittleEndian32_append_left _ (by rw [List.length_take]; omega)
  rw [List.take_append_drop] at happ
  exact happ.symm

theorem readLittleEndian32_frame_crc (payload : Bytes) :
    readLittleEndian32 (frame payload) 4 = crc32 payload := by
  rw [frame_eq]
  exact readLittleEndian32_append (toLE 4 (UInt32.ofNat payload.length).toNat) payload _

theorem frame_drop_header (payload : Bytes) : (frame payload).drop kHeaderBytes = payload := by
  rw [frame_eq]
  rfl

/-- **One frame is not another one, damaged.** -/
theorem not_damaged_frame {payload p : Bytes} (h : Damaged (frame payload) (frame p)) : False := by
  obtain ⟨hne, hplace⟩ := h
  refine hne (congrArg frame ?_)
  rcases hplace with hfield | ⟨k, hk, hburst⟩
  · -- the payloads are out of reach of the damage
    have hdrop := hfield.drop_eq le_rfl
    rwa [frame_drop_header, frame_drop_header] at hdrop
  · -- the checksums are, and they tell the payloads apart
    have hcrc : crc32 p = crc32 payload := by
      have hheader := hburst.take_eq hk
      have hread := congrArg (readLittleEndian32 · 4) hheader
      rw [readLittleEndian32_take (by decide) (by simp),
        readLittleEndian32_take (by decide) (by simp), readLittleEndian32_frame_crc,
          readLittleEndian32_frame_crc] at hread
      exact hread
    have hbody := hburst.drop hk
    rw [frame_drop_header, frame_drop_header] at hbody
    obtain ⟨before, burst, burst', after, rfl, rfl, hlen, h4⟩ := hbody.split (by omega)
    rw [crc32_burst hlen (by omega) hcrc.symm]

/-- Damage keeps away from the length field. -/
theorem Damaged.length_field {record record' : Bytes} (h : Damaged record record') :
    record'.length = record.length ∧ record'.take 4 = record.take 4 := by
  rcases h.2 with hfield | ⟨k, hk, hburst⟩
  · exact ⟨hfield.length_eq, hfield.take_eq le_rfl⟩
  · rw [kHeaderBytes] at hk
    exact ⟨hburst.length_eq, hburst.take_eq (by omega)⟩

/-- **A damaged record is corrupt**, whatever stands behind it. -/
theorem parseRecord_damaged {payload record' : Bytes} (hp : payload.length ≤ kMaxPayloadBytes)
    (h : Damaged (frame payload) record') (rest : Bytes) :
    parseRecord (record' ++ rest) 0 = .corrupt := by
  obtain ⟨hlen, htake⟩ := h.length_field
  have hroom : record'.length = kHeaderBytes + payload.length := hlen.trans (length_frame payload)
  have hfield : (readLittleEndian32 (record' ++ rest) 0).toNat = payload.length := by
    have hframe := readLittleEndian32_frame [] (lt_size_of_le hp)
    rw [List.append_nil] at hframe
    rw [kHeaderBytes] at hroom
    rw [readLittleEndian32_append_left rest (by omega),
      ← readLittleEndian32_take (n := 4) (by omega) (by omega), htake,
      readLittleEndian32_take (by omega) (by rw [length_frame, kHeaderBytes]; omega)]
    exact hframe
  cases hparse : parseRecord (record' ++ rest) 0 with
  | corrupt => rfl
  | incomplete =>
      -- all the bytes the length field calls for are there
      unfold parseRecord at hparse
      dsimp only at hparse
      rw [hfield, if_neg (by rw [List.length_append]; omega), if_neg (by omega),
        if_neg (by rw [List.length_append]; omega)] at hparse
      split at hparse
      · exact hparse.symm
      · exact absurd hparse (by simp)
  | ok p next =>
      exfalso
      have hsame := (parseRecord_ok hparse).2.2.2.2.1
      obtain ⟨-, hframe⟩ := frame_of_parseRecord hparse
      have hlength : record'.length = (frame p).length := by
        rw [hroom, length_frame, ← hsame, hfield]
      have heq : record' = frame p := List.append_inj_left hframe hlength
      rw [heq] at h
      exact not_damaged_frame h

/-! ## Replay cuts it off -/

/--
**Replay finds the damage and cuts the file there.**

The file is a list of frames one of which was damaged. The callback accepts every
record, and what it is handed are the payloads before the damaged one.
-/
theorem replay_cuts_damaged {σ : Type} (deliver : σ → Bytes → σ) (st : σ) (payloads : List Bytes)
    (hv : ∀ p ∈ payloads, p.length ≤ kMaxPayloadBytes) (i : Nat) (hi : i < payloads.length)
    (record' : Bytes) (hd : Damaged (frame payloads[i]) record') :
    let file :=
      (payloads.take i).flatMap frame ++ (record' ++ (payloads.drop (i + 1)).flatMap frame)
    let replayed := replay (fun st payload => some (deliver st payload)) st file
    replayed.state = (payloads.take i).foldl deliver st
      ∧ replayed.result.recordsApplied = i
      ∧ replayed.result.truncated = true
      ∧ replayed.result.sawCorruption = true
      ∧ replayed.file = (payloads.take i).flatMap frame := by
  intro file replayed
  have hbefore : ∀ p ∈ payloads.take i, p.length ≤ kMaxPayloadBytes :=
    fun p hp => hv p (List.mem_of_mem_take hp)
  have hdeliver : (payloads.take i).foldlM (fun st payload => some (deliver st payload)) st
      = some ((payloads.take i).foldl deliver st) := List.foldlM_pure ..
  have hcorrupt : recordCode.parse (record' ++ (payloads.drop (i + 1)).flatMap frame)
      = .corrupt := by
    unfold recordCode
    dsimp only
    rw [parseRecord_damaged (hv _ (List.getElem_mem hi)) hd]
  -- a damaged record is as long as it was, so it is not nothing
  have hne : record' ++ (payloads.drop (i + 1)).flatMap frame ≠ [] := by
    have hlen := hd.length_field.1
    rw [length_frame, kHeaderBytes] at hlen
    intro hnil
    have := congrArg List.length hnil
    rw [List.length_append, List.length_nil] at this
    omega
  obtain ⟨hstate, hfile, htruncated, hsaw⟩ := replay_stopped hbefore hdeliver
    (FrameCode.scan_corrupt (C := recordCode) hne hcorrupt) (by simp)
  refine ⟨hstate, ?_, htruncated, hsaw, hfile⟩
  rw [replay_recordsApplied hbefore hfile, List.length_take]
  exact min_eq_left (by omega)

/-- The second of three records comes back with another first byte. -/
theorem replay_cuts_damaged_second :
    let file := [[1]].flatMap frame ++ (((frame [2, 3]).take 8 ++ [7, 3]) ++ [[4]].flatMap frame)
    (replay (fun seen payload => some (seen ++ [payload])) [] file).state = [[1]]
      ∧ (replay (fun seen payload => some (seen ++ [payload])) [] file).file = frame [1] := by
  have hframe : frame [2, 3] = (frame [2, 3]).take 8 ++ [2] ++ [3] := by decide +kernel
  have hlen : ((frame [2, 3]).take 8).length = 8 := by simp [kHeaderBytes]
  have halters : AltersWithin 8 12 (frame [2, 3]) ((frame [2, 3]).take 8 ++ [7] ++ [3]) := by
    have hbyte : AltersWithin ((frame [2, 3]).take 8).length (((frame [2, 3]).take 8).length + 4)
        ((frame [2, 3]).take 8 ++ [2] ++ [3]) ((frame [2, 3]).take 8 ++ [7] ++ [3]) := by
      refine AltersWithin.of_append ?_ ?_
      · rfl
      · decide
    rwa [hlen, ← hframe] at hbyte
  have hdamaged : Damaged (frame [2, 3]) ((frame [2, 3]).take 8 ++ [7, 3]) :=
    ⟨by decide +kernel, .inr ⟨8, le_rfl, halters⟩⟩
  have h := replay_cuts_damaged (fun seen payload => seen ++ [payload]) [] [[1], [2, 3], [4]]
    (by decide) 1 (by decide) _ hdamaged
  exact ⟨h.1, h.2.2.2.2⟩

end KvStore.Wal
