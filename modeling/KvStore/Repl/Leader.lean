import KvStore.Repl.Control
import KvStore.Store.Store

/-!
# The leader's side of a link

`src/repl/leader.cpp`, one session of it: the handshake, shipping, and the
acknowledgements. The queue behind the lag statistics is in `KvStore.Repl.Lag`.
-/

namespace KvStore.Repl

open Lib Wal

/-- So much is shipped at a time. -/
def kStreamChunkBytes : Nat := 64 * 1024

/-- The size of the buffer in `drainAcks`. -/
def kAckReadBytes : Nat := 256

/-- What a leader knows about a follower. -/
structure Session where
  sentOffset : Nat := 0
  acked : Nat := 0
  ackBuffer : Bytes := []
  deriving DecidableEq, Repr

namespace Session

/-- `performHandshake` on a whole line: the reply, and the session unless it is refused. -/
def performHandshake (line leaderToken : Bytes) (leaderOffset : Nat) : Bytes × Option Session :=
  match parseSync line with
  | .error reply => (reply, none)
  | .ok (token, requested) =>
      let r := answer token requested leaderToken leaderOffset
      (r.1, some { sentOffset := r.2, acked := r.2 })

/--
One round of the loop of `shipPending`, up to `target`, in which `pread` returned
`n` bytes of `file`. `none` when there was nothing to send, or nothing to read.
-/
def shipChunk (s : Session) (file : Bytes) (target n : Nat) : Option (Session × Bytes) :=
  if s.sentOffset < target then
    let want := min (target - s.sentOffset) kStreamChunkBytes
    let bytes := (file.drop s.sentOffset).take (min n want)
    if bytes = [] then none
    else some ({ s with sentOffset := s.sentOffset + bytes.length }, bytes)
  else none

/-- `drainAcks` on the bytes of one `read`; `false` ends the session. -/
def drainAcks (s : Session) (bytes : Bytes) : Session × Bool :=
  let buffer := s.ackBuffer ++ bytes
  if buffer.length > kMaxControlLine then ({ s with ackBuffer := buffer }, false)
  else
    let r := drainLines buffer.length buffer none
    let s := { s with ackBuffer := r.2 }
    match r.1 with
    | none => (s, true)
    | some highest => ({ s with acked := max s.acked highest }, true)

/-- What is shipped is what comes next in the file, wherever the log is thought to end. -/
theorem shipChunk_bytes {s s' : Session} {file bytes : Bytes} {target n : Nat}
    (h : s.shipChunk file target n = some (s', bytes)) :
    s'.sentOffset = s.sentOffset + bytes.length ∧ bytes <+: file.drop s.sentOffset
      ∧ s'.sentOffset ≤ target ∧ s'.sentOffset ≤ file.length := by
  rw [shipChunk] at h
  split at h
  · dsimp only at h
    split at h
    · exact absurd h (by simp)
    · rename_i hlt hne
      obtain ⟨rfl, rfl⟩ := Prod.mk.inj (Option.some.inj h)
      have hpos := List.length_pos_of_ne_nil hne
      refine ⟨rfl, List.take_prefix _ _, ?_, ?_⟩
      · show s.sentOffset + _ ≤ _
        rw [List.length_take]
        omega
      · show s.sentOffset + _ ≤ _
        rw [List.length_take, List.length_drop] at hpos ⊢
        omega
  · exact absurd h (by simp)

theorem shipChunk_acks {s s' : Session} {file bytes : Bytes} {target n : Nat}
    (h : s.shipChunk file target n = some (s', bytes)) :
    s'.acked = s.acked ∧ s'.ackBuffer = s.ackBuffer := by
  rw [shipChunk] at h
  split at h
  · dsimp only at h
    split at h
    · exact absurd h (by simp)
    · obtain ⟨rfl, _⟩ := Prod.mk.inj (Option.some.inj h)
      exact ⟨rfl, rfl⟩
  · exact absurd h (by simp)

/-- With the whole log to ship, what has been sent of it grows by the chunk. -/
theorem shipChunk_spec {s s' : Session} {file bytes : Bytes} {n : Nat}
    (h : s.shipChunk file file.length n = some (s', bytes)) :
    s'.sentOffset ≤ file.length
      ∧ file.take s'.sentOffset = file.take s.sentOffset ++ bytes := by
  obtain ⟨hsent, hbytes, _, hle⟩ := shipChunk_bytes h
  refine ⟨hle, ?_⟩
  rw [hsent, List.take_add, ← List.prefix_iff_eq_take.mp hbytes]

/-- Acknowledgements move nothing but `acked`. -/
theorem drainAcks_sentOffset (s : Session) (bytes : Bytes) :
    (s.drainAcks bytes).1.sentOffset = s.sentOffset := by
  unfold drainAcks
  dsimp only
  split
  · rfl
  · split <;> rfl

/-- Whatever has been read of them, acknowledgements are not confused with one another. -/
theorem drainAcks_acks {s : Session} {bytes later : Bytes} {offsets : List Nat}
    (h : s.ackBuffer ++ (bytes ++ later) = offsets.flatMap ackLine) :
    ∃ left, left ⊆ offsets ∧ (s.drainAcks bytes).1.ackBuffer ++ later = left.flatMap ackLine
      ∧ ((s.drainAcks bytes).1.acked = s.acked ∨ (s.drainAcks bytes).1.acked ∈ offsets) := by
  rw [← List.append_assoc] at h
  unfold drainAcks
  dsimp only
  split
  · exact ⟨offsets, List.Subset.refl _, h, Or.inl rfl⟩
  · rcases hd : drainLines (s.ackBuffer ++ bytes).length (s.ackBuffer ++ bytes) none with ⟨r, rest⟩
    obtain ⟨done, left, rfl, hleft, hr⟩ := drainLines_acks h hd
    refine ⟨left, List.subset_append_right _ _, ?_⟩
    cases r with
    | none => exact ⟨hleft, Or.inl rfl⟩
    | some highest =>
        refine ⟨hleft, ?_⟩
        have hmem : highest ∈ done := (hr highest rfl).resolve_right (by simp)
        show max s.acked highest = s.acked ∨ max s.acked highest ∈ done ++ left
        rcases Nat.le_total highest s.acked with hle | hle
        · exact Or.inl (Nat.max_eq_left hle)
        · exact Or.inr (by rw [Nat.max_eq_right hle]; exact List.mem_append_left _ hmem)

end Session

end KvStore.Repl
