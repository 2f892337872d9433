import Mathlib.Data.List.Infix
import KvStore.Proof.Streaming

/-!
# What a follower holds back

Whether to write what has been gathered is decided once for every read, by the flag at
its end. So operations that are complete are held back when the same read has gone on to
the beginning of a transaction; and everything gathered is counted against the limit that
is meant for one transaction.

A read does no harm as long as it does not end inside of a transaction after it has
completed an operation, and what is gathered at its end is within the limit. Both can be
said of the stream and of where it is cut.
-/

namespace KvStore.Repl

open Lib Wal Protocol

variable {cfg : StoreConfig}

/-! ## What has arrived -/

/-- How long the payloads are together. -/
def payloadBytes (payloads : List Bytes) : Nat := (payloads.map List.length).sum

theorem payloadBytes_append (ps qs : List Bytes) :
    payloadBytes (ps ++ qs) = payloadBytes ps + payloadBytes qs := by
  rw [payloadBytes, List.map_append, List.sum_append]
  rfl

/-- The operations of a stream that end within its first `n` bytes. -/
def complete (ops : List Op) (n : Nat) : List Op := fitting (fun op => op.bytes.length) ops n

/-- The records that do. -/
def arrived (ops : List Op) (n : Nat) : List Bytes :=
  fitting (fun p => (frame p).length) (ops.flatMap Op.payloads) n

/-- What has arrived by the byte `m` without the operations that were complete at `n`. -/
def gathered (ops : List Op) (n m : Nat) : List Bytes :=
  (arrived ops m).drop ((complete ops n).flatMap Op.payloads).length

/-- What has arrived of an operation that is not complete. -/
def begun (ops : List Op) (n : Nat) : List Bytes := gathered ops n n

section Arrived

variable {ops : List Op} {n m : Nat}

theorem length_bytes (ops : List Op) :
    (ops.flatMap Op.bytes).length = (ops.map fun op => op.bytes.length).sum := List.length_flatMap

theorem length_complete_le (ops : List Op) (n : Nat) :
    ((complete ops n).flatMap Op.bytes).length ≤ n := by
  rw [length_bytes]
  exact sum_fitting_le _ ops n

theorem complete_front (ops : List Op) (n : Nat) : complete ops n <+: ops := fitting_front _ ops n

theorem arrived_front (ops : List Op) (n : Nat) : arrived ops n <+: ops.flatMap Op.payloads :=
  fitting_front _ _ n

/-- A beginning that is short enough has arrived. -/
theorem prefix_arrived {ps : List Bytes} (h : ps <+: ops.flatMap Op.payloads)
    (hle : (frames ps).length ≤ n) : ps <+: arrived ops n :=
  prefix_fitting h (by rwa [List.length_flatMap] at hle)

/-- At the end of the stream everything has. -/
theorem arrived_all (ops : List Op) :
    arrived ops (ops.flatMap Op.bytes).length = ops.flatMap Op.payloads := by
  have hall : ops.flatMap Op.payloads <+: arrived ops (ops.flatMap Op.bytes).length :=
    prefix_arrived List.prefix_rfl (by rw [frames_flatMap])
  exact (arrived_front ops _).eq_of_length_le hall.length_le

theorem complete_payloads_prefix (ops : List Op) (h : n ≤ m) :
    (complete ops n).flatMap Op.payloads <+: arrived ops m := by
  refine prefix_arrived ((complete_front ops n).flatMap _) ?_
  rw [← frames_flatMap]
  exact (length_complete_le ops n).trans h

theorem arrived_eq (ops : List Op) (h : n ≤ m) :
    arrived ops m = (complete ops n).flatMap Op.payloads ++ gathered ops n m := by
  obtain ⟨rest, hrest⟩ := complete_payloads_prefix ops h
  rw [gathered, ← hrest, List.drop_left]

/-- Between two points of the stream. -/
theorem exists_between (ops : List Op) (h : n ≤ m) :
    ∃ new more, arrived ops m = arrived ops n ++ new
      ∧ gathered ops n m = begun ops n ++ new
      ∧ complete ops m = complete ops n ++ more
      ∧ gathered ops n m = more.flatMap Op.payloads ++ begun ops m := by
  obtain ⟨new, hnew⟩ := fitting_mono (fun p => (frame p).length) (ops.flatMap Op.payloads) h
  obtain ⟨more, hmore⟩ := fitting_mono (fun op : Op => op.bytes.length) ops h
  have hnew : arrived ops n ++ new = arrived ops m := hnew
  have hmore : complete ops n ++ more = complete ops m := hmore
  refine ⟨new, more, hnew.symm, ?_, hmore.symm, ?_⟩
  · have hall := arrived_eq ops h
    rw [← hnew, arrived_eq ops (le_refl n), List.append_assoc] at hall
    exact (List.append_cancel_left hall).symm
  · have hall := arrived_eq ops h
    rw [arrived_eq ops (le_refl m), ← hmore, List.flatMap_append, List.append_assoc] at hall
    exact (List.append_cancel_left hall).symm

/-- An operation that is complete at last has brought a byte. -/
theorem complete_eq_of_length (h : n ≤ m)
    (hlen : ((complete ops m).flatMap Op.bytes).length
      = ((complete ops n).flatMap Op.bytes).length) :
    complete ops m = complete ops n := by
  refine fitting_eq_of_sum_le h ?_
  rw [← length_bytes]
  exact hlen.trans_le (length_complete_le ops n)

theorem flag_complete (hfit : ∀ op ∈ ops, op.Fits) (n : Nat) :
    ((complete ops n).flatMap Op.payloads).foldl flag false = false := by
  have hrun := Meaning.run_ops (fun op hop => hfit op ((complete_front ops n).subset hop))
    (ShardedMap.init standalone.toMapConfig)
  exact (run_flag hrun).symm

/-- **The flag is down where no operation has begun.** -/
theorem flag_arrived (hfit : ∀ op ∈ ops, op.Fits) (n : Nat) :
    (arrived ops n).foldl flag false = false ↔ begun ops n = [] := by
  constructor
  · intro hflag
    obtain ⟨j, hwhole, -⟩ := whole_operations hfit (arrived_front ops n) hflag
      (ShardedMap.init standalone.toMapConfig)
    -- operations whose records have arrived are complete
    have hle : ((ops.take j).flatMap Op.bytes).length ≤ n := by
      rw [frames_flatMap, ← hwhole, List.length_flatMap]
      exact sum_fitting_le _ _ n
    rw [length_bytes] at hle
    have hcomplete : ops.take j <+: complete ops n := prefix_fitting (List.take_prefix j ops) hle
    rw [begun, gathered, hwhole]
    exact List.drop_eq_nil_of_le (hcomplete.flatMap _).length_le
  · intro hbegun
    have hall := arrived_eq ops (le_refl n)
    rw [show gathered ops n n = [] from hbegun, List.append_nil] at hall
    rw [hall]
    exact flag_complete hfit n

/-- The flag at the end of a read, from what is gathered. -/
theorem flag_gathered (hfit : ∀ op ∈ ops, op.Fits) (h : n ≤ m) :
    (gathered ops n m).foldl flag false = false ↔ begun ops m = [] := by
  rw [← flag_arrived hfit m, arrived_eq ops h, List.foldl_append, flag_complete hfit n]

end Arrived

/-! ## Splitting off exactly what has arrived -/

namespace Follower

theorem noteAll_cons (f : Follower cfg) (p : Bytes) (ps : List Bytes) :
    f.noteAll (p :: ps) = (f.note p).noteAll ps := rfl

theorem pendingBytes_noteAll (f : Follower cfg) (ps : List Bytes) :
    (f.noteAll ps).pendingBytes = f.pendingBytes + payloadBytes ps := by
  induction ps generalizing f with
  | nil => rfl
  | cons p ps ih =>
      rw [noteAll_cons, ih]
      show f.pendingBytes + p.length + payloadBytes ps
        = f.pendingBytes + (p.length + payloadBytes ps)
      omega

theorem length_le_frames (ps : List Bytes) : ps.length ≤ (frames ps).length := by
  induction ps with
  | nil => exact Nat.zero_le _
  | cons p ps ih =>
      have hcons : frames (p :: ps) = frame p ++ frames ps := List.flatMap_cons
      rw [hcons, List.length_append, length_frame, List.length_cons, kHeaderBytes]
      omega

theorem parseRecord_incomplete {q : Bytes}
    (hq : q = [] ∨ ∃ c : Bytes, c.length ≤ kMaxPayloadBytes ∧ ∃ s, frame c = q ++ s ∧ s ≠ []) :
    parseRecord q 0 = .incomplete := by
  rcases hq with rfl | ⟨c, hc, s, hcut, hs⟩
  · rfl
  · exact parseRecord_cut hc hcut hs

/--
**The loop splits off every record that is there**, unless they are too many: the bytes
are whole records and at most one that is cut.
-/
theorem consumeLoop_frames {ps : List Bytes} (hv : ∀ p ∈ ps, p.length ≤ kMaxPayloadBytes)
    {q : Bytes} (hq : parseRecord q 0 = .incomplete) {buffer : Bytes} {fuel offset : Nat}
    {f : Follower cfg} (hle : offset ≤ buffer.length) (hfuel : ps.length ≤ fuel)
    (hsplit : buffer.drop offset = frames ps ++ q)
    (hlimit : f.pendingBytes ≤ kMaxBufferedTransactionBytes) :
    consumeLoop buffer fuel offset f =
      if f.pendingBytes + payloadBytes ps ≤ kMaxBufferedTransactionBytes then
        .ok (f.noteAll ps, buffer.length - q.length)
      else .error .overLimit := by
  induction ps generalizing fuel offset f with
  | nil =>
      have hoffset : buffer.length - q.length = offset := by
        have hlen := congrArg List.length hsplit
        rw [List.length_drop] at hlen
        simp only [frames, List.flatMap_nil, List.nil_append] at hlen
        omega
      have hparse : parseRecord buffer offset = .incomplete := by
        rw [parseRecord_drop hle, hsplit, frames, List.flatMap_nil, List.nil_append, hq]
      rw [if_pos (by simpa [payloadBytes] using hlimit), hoffset]
      cases fuel with
      | zero => rfl
      | succ fuel =>
          rw [consumeLoop, hparse]
          rfl
  | cons p ps ih =>
      obtain ⟨hp, hps⟩ := List.forall_mem_cons.mp hv
      cases fuel with
      | zero => exact absurd hfuel (by simp)
      | succ fuel =>
          have hframes : frames (p :: ps) ++ q = frame p ++ (frames ps ++ q) := by simp [frames]
          rw [hframes] at hsplit
          have hparse : parseRecord buffer offset = .ok p (offset + (frame p).length) := by
            rw [parseRecord_drop hle, hsplit, parseRecord_frame _ hp, length_frame]
          obtain ⟨-, -, hend, -⟩ := parseRecord_ok hparse
          have hrest : buffer.drop (offset + (frame p).length) = frames ps ++ q := by
            rw [← List.drop_drop, hsplit, List.drop_left]
          have hnoted : (f.note p).pendingBytes = f.pendingBytes + p.length := rfl
          have hsum : f.pendingBytes + payloadBytes (p :: ps)
              = (f.note p).pendingBytes + payloadBytes ps := by
            show f.pendingBytes + (p.length + payloadBytes ps)
              = f.pendingBytes + p.length + payloadBytes ps
            omega
          -- the limit is compared with what is pending so far, so the first excess counts
          rw [consumeLoop, hparse, hsum]
          dsimp only
          split
          · rename_i hover
            rw [if_neg (by omega)]
          · rename_i hroom
            exact ih hps hend (by simpa using hfuel) hrest (by omega)

end Follower

/-- Operations without records change neither the log nor the map. -/
theorem Holds.append_empty {f : Follower cfg} {held more : List Op} (h : Holds f held)
    (hmore : more.flatMap Op.bytes = []) : Holds f (held ++ more) := by
  have hnone : ∀ op ∈ more, op.payloads = [] := by
    intro op hop
    by_contra hne
    have hbytes := List.flatMap_eq_nil_iff.mp hmore op hop
    exact absurd (bytes_pos hne) (by rw [hbytes]; simp)
  refine ⟨?_, h.offset, ?_⟩
  · rw [List.flatMap_append, hmore, List.append_nil, h.file]
  · rw [h.meaning, Meaning.applyOps_append, applyOps_empty hnone]

/-! ## Reading a stream -/

namespace Feed

/-- A follower on a link, and what it has read from it. -/
structure State (cfg : StoreConfig) where
  follower : Follower cfg
  received : Bytes := []
  /-- The acknowledgements it has sent. -/
  acks : List Nat := []
  /-- Why it has given up the link. -/
  dropped : Option Drop := none

/-- What one call of `read` returns, and what becomes of the append that may follow. -/
structure Read where
  chunk : Bytes
  io : Io := {}
  deriving DecidableEq, Repr

/-- How much of the stream has been read. -/
abbrev State.seen (s : State cfg) : Nat := s.received.length

/-- How much of it will have been, after another read. -/
abbrev State.ahead (s : State cfg) (r : Read) : Nat := (s.received ++ r.chunk).length

theorem State.seen_le_ahead (s : State cfg) (r : Read) : s.seen ≤ s.ahead r := by
  rw [State.ahead, List.length_append]
  exact Nat.le_add_right _ _

/-- One round of `consume` on the stream of the operations. -/
def step (ops : List Op) (s : State cfg) (r : Read) : Option (State cfg) :=
  if s.dropped = none ∧ r.chunk ≠ [] ∧ r.chunk.length ≤ kReadChunkBytes ∧ r.io.Clean
      ∧ s.received ++ r.chunk <+: ops.flatMap Op.bytes then
    match s.follower.receive r.chunk r.io with
    | (f, .ok ack) =>
        some { follower := f, received := s.received ++ r.chunk, acks := s.acks ++ ack.toList }
    | (f, .error e) =>
        some
          { s with
            follower := f.disconnect
            received := s.received ++ r.chunk
            dropped := some e }
  else none

/-- A follower that holds some operations, and has just connected. -/
def system (cfg : StoreConfig) (held ops : List Op) : System (State cfg) Read where
  init s := ∃ f : Follower cfg, Holds f held ∧ Idle f ∧ f.pendingBytes = 0 ∧ s = { follower := f }
  step := step ops

/-- A transaction that is larger than the limit. -/
def Oversized : Op → Prop
  | .commitTransaction txnId mutations =>
      kMaxBufferedTransactionBytes < payloadBytes (Store.transactionPayloads txnId mutations)
  | _ => False

instance : (op : Op) → Decidable (Oversized op)
  | .commitTransaction txnId mutations =>
      inferInstanceAs (Decidable
        (kMaxBufferedTransactionBytes < payloadBytes (Store.transactionPayloads txnId mutations)))
  | .set _ _ => inferInstanceAs (Decidable False)
  | .del _ => inferInstanceAs (Decidable False)

/-- Every operation that is complete has been logged, applied and acknowledged. -/
structure UpToDate (held ops : List Op) (s : State cfg) : Prop where
  logged : s.follower.store.log.file
    = (held ++ complete ops s.seen).flatMap Op.bytes
  applied : s.follower.store.map
    = Meaning.applyOps (held ++ complete ops s.seen) (ShardedMap.init _)
  acknowledged : (complete ops s.seen).flatMap Op.bytes ≠ [] →
    s.acks.getLast? = some s.follower.store.log.file.length

/-- The link is given up for a transaction that is too large, and else nothing is held back. -/
structure Prompt (held ops : List Op) (s : State cfg) : Prop where
  dropped : ∀ e, s.dropped = some e → e = .overLimit ∧ ∃ op ∈ ops, Oversized op
  upToDate : s.dropped = none → UpToDate held ops s

/-- No operation has been begun at `m`, or none was completed from `n` on. -/
def Settles (ops : List Op) (n m : Nat) : Prop :=
  begun ops m = [] ∨ complete ops m = complete ops n

instance (ops : List Op) (n m : Nat) : Decidable (Settles ops n m) :=
  inferInstanceAs (Decidable (begun ops m = [] ∨ complete ops m = complete ops n))

/--
The condition on a read, by where it begins and ends in the stream. What is gathered is
within the limit, and it does not end inside of a transaction after it has completed an
operation; or the limit is exceeded, and some transaction exceeds it by itself.
-/
def Meets (ops : List Op) (s : State cfg) (r : Read) : Prop :=
  if payloadBytes (gathered ops s.seen (s.ahead r)) ≤ kMaxBufferedTransactionBytes then
    Settles ops s.seen (s.ahead r)
  else ∃ op ∈ ops, Oversized op

instance (ops : List Op) (s : State cfg) (r : Read) : Decidable (Meets ops s r) :=
  inferInstanceAs (Decidable
    (if payloadBytes (gathered ops s.seen (s.ahead r)) ≤ kMaxBufferedTransactionBytes then
      Settles ops s.seen (s.ahead r)
    else ∃ op ∈ ops, Oversized op))

/-! ### What a follower has between two reads -/

/-- Nothing is held back but the beginning of an operation and the beginning of a record. -/
structure OnlyBeginningsPending (held ops : List Op) (s : State cfg) : Prop where
  open_ : s.dropped = none
  received : s.received <+: ops.flatMap Op.bytes
  stream : frames (arrived ops s.seen) ++ s.follower.recvBuffer = s.received
  pending : s.follower.pending = begun ops s.seen
  bytes : s.follower.pendingBytes = payloadBytes s.follower.pending
  within : s.follower.pendingBytes ≤ kMaxBufferedTransactionBytes
  flag : s.follower.insideTransaction = s.follower.pending.foldl flag false
  holds : Holds s.follower (held ++ complete ops s.seen)
  acked : (complete ops s.seen).flatMap Op.bytes ≠ [] →
    s.acks.getLast? = some s.follower.store.log.file.length

section OnlyBeginningsPending

variable {held ops : List Op} {s s' : State cfg} {r : Read}

theorem OnlyBeginningsPending.upToDate (h : OnlyBeginningsPending held ops s) :
    UpToDate held ops s :=
  ⟨h.holds.file, h.holds.map, h.acked⟩

theorem OnlyBeginningsPending.prompt (h : OnlyBeginningsPending held ops s) : Prompt held ops s :=
  ⟨fun e he => absurd (h.open_.symm.trans he) (by simp), fun _ => h.upToDate⟩

theorem onlyBeginningsPending_init (h : (system cfg held ops).init s) :
    OnlyBeginningsPending held ops s := by
  obtain ⟨f, hholds, ⟨hbuffer, hpending, hinside⟩, hbytes, rfl⟩ := h
  have hcomplete : (complete ops 0).flatMap Op.bytes = [] :=
    List.eq_nil_of_length_eq_zero (Nat.le_zero.mp (length_complete_le ops 0))
  have harrived : arrived ops 0 = [] := by
    by_contra hne
    have hpos := frames_pos hne
    rw [List.length_flatMap] at hpos
    exact absurd (sum_fitting_le (fun p => (frame p).length) (ops.flatMap Op.payloads) 0)
      (Nat.not_le.mpr hpos)
  have hbegun : begun ops 0 = [] := by
    rw [begun, gathered, harrived, List.drop_nil]
  refine ⟨rfl, List.nil_prefix, ?_, ?_, ?_, ?_, ?_, hholds.append_empty hcomplete, ?_⟩
  · show frames (arrived ops 0) ++ f.recvBuffer = []
    rw [harrived, hbuffer]
    rfl
  · exact hpending.trans hbegun.symm
  · show f.pendingBytes = payloadBytes f.pending
    rw [hbytes, hpending]
    rfl
  · show f.pendingBytes ≤ _
    rw [hbytes]
    exact Nat.zero_le _
  · show f.insideTransaction = f.pending.foldl Repl.flag false
    rw [hinside, hpending]
    rfl
  · exact fun hne => absurd hcomplete hne

/-! ### One read -/

/-- What a read brings: whole records, which complete some operations, and the beginning of one. -/
structure Brings (ops : List Op) (s : State cfg) (r : Read) (new : List Bytes) (more : List Op)
    (rest : Bytes) : Prop where
  received : s.received ++ r.chunk <+: ops.flatMap Op.bytes
  buffer : s.follower.recvBuffer ++ r.chunk = frames new ++ rest
  incomplete : parseRecord rest 0 = .incomplete
  records : arrived ops (s.ahead r) = arrived ops s.seen ++ new
  kept : gathered ops s.seen (s.ahead r) = begun ops s.seen ++ new
  operations : complete ops (s.ahead r) = complete ops s.seen ++ more
  whole : gathered ops s.seen (s.ahead r) = more.flatMap Op.payloads ++ begun ops (s.ahead r)

/-- Every read does. -/
theorem OnlyBeginningsPending.brings (hfit : ∀ op ∈ ops, op.Fits)
    (h : OnlyBeginningsPending held ops s) (hpre : s.received ++ r.chunk <+: ops.flatMap Op.bytes) :
    ∃ new more rest, Brings ops s r new more rest := by
  obtain ⟨new, more, hnew, hkept, hmore, hwhole⟩ := exists_between ops (s.seen_le_ahead r)
  obtain ⟨rest, htake, hrest⟩ := FrameCode.take_frames (C := recordCode) (ops.flatMap Op.payloads)
    (s.ahead r)
  have htake : (frames (ops.flatMap Op.payloads)).take (s.ahead r)
      = frames (arrived ops (s.ahead r)) ++ rest := htake
  have hbytes : s.received ++ r.chunk = frames (arrived ops (s.ahead r)) ++ rest := by
    rw [← htake, ← frames_flatMap]
    exact List.prefix_iff_eq_take.mp hpre
  refine ⟨new, more, rest, hpre, ?_, Follower.parseRecord_incomplete (hrest.imp id ?_), hnew, hkept,
    hmore, hwhole⟩
  · -- the records that had arrived before are in front on both sides
    rw [hnew, frames_append] at hbytes
    nth_rewrite 1 [← h.stream] at hbytes
    rw [List.append_assoc, List.append_assoc] at hbytes
    exact List.append_cancel_left hbytes
  · rintro ⟨c, hc, tail, hcut, hne⟩
    exact ⟨c, payloads_le hfit c hc, tail, hcut, hne⟩

section Brings

variable {new : List Bytes} {more : List Op} {rest : Bytes} (hb : Brings ops s r new more rest)

include hb

theorem Brings.payload_le (hfit : ∀ op ∈ ops, op.Fits) :
    ∀ p ∈ new, p.length ≤ kMaxPayloadBytes := by
  intro p hp
  have hmem : p ∈ arrived ops (s.ahead r) := by
    rw [hb.records]
    exact List.mem_append_right _ hp
  exact payloads_le hfit p ((arrived_front ops _).subset hmem)

theorem Brings.fits (hfit : ∀ op ∈ ops, op.Fits) : ∀ op ∈ more, op.Fits := by
  intro op hop
  refine hfit op ((complete_front ops (s.ahead r)).subset ?_)
  rw [hb.operations]
  exact List.mem_append_right _ hop

/-- **What a read comes to**, by what is gathered at its end. -/
theorem OnlyBeginningsPending.receive (hfit : ∀ op ∈ ops, op.Fits)
    (h : OnlyBeginningsPending held ops s) :
    s.follower.receive r.chunk r.io =
      if payloadBytes (gathered ops s.seen (s.ahead r)) ≤ kMaxBufferedTransactionBytes then
        if begun ops (s.ahead r) = [] ∧ gathered ops s.seen (s.ahead r) ≠ [] then
          match (s.follower.intake new rest).flushPending r.io with
          | (g, .error e) => (g, .error e)
          | (g, .ok _) => (g, .ok (some g.store.logOffset))
        else (s.follower.intake new rest, .ok none)
      else (s.follower, .error .overLimit) := by
  have hfuel : new.length ≤ (s.follower.recvBuffer ++ r.chunk).length := by
    rw [hb.buffer, List.length_append]
    exact Nat.le_add_right_of_le (Follower.length_le_frames new)
  have hdrop : (s.follower.recvBuffer ++ r.chunk).drop 0 = frames new ++ rest := by
    rw [List.drop_zero, hb.buffer]
  have hloop := Follower.consumeLoop_frames (hb.payload_le hfit) hb.incomplete (Nat.zero_le _) hfuel
    hdrop h.within
  have hflag : new.foldl Repl.flag s.follower.insideTransaction = false
      ↔ begun ops (s.ahead r) = [] := by
    rw [← flag_gathered hfit (s.seen_le_ahead r), hb.kept, h.flag, h.pending, List.foldl_append]
  -- the limit is compared with all that is gathered, not with what belongs to one transaction
  rw [h.bytes, h.pending, ← payloadBytes_append, ← hb.kept] at hloop
  by_cases hroom : payloadBytes (gathered ops s.seen (s.ahead r)) ≤ kMaxBufferedTransactionBytes
  · rw [if_pos hroom] at hloop ⊢
    rw [Follower.receive_of_ok hb.buffer hloop]
    exact if_congr (and_congr hflag (by rw [h.pending, ← hb.kept])) rfl rfl
  · rw [if_neg hroom] at hloop ⊢
    rw [Follower.receive, hloop]

/-- Nothing is lost between the records that have arrived and the beginning of the next. -/
theorem OnlyBeginningsPending.stream_next (h : OnlyBeginningsPending held ops s) :
    frames (arrived ops (s.ahead r)) ++ rest = s.received ++ r.chunk := by
  rw [hb.records, frames_append, List.append_assoc, ← hb.buffer, ← List.append_assoc, h.stream]

/-- What is gathered is kept, since no operation is complete that was not. -/
theorem OnlyBeginningsPending.keep (h : OnlyBeginningsPending held ops s)
    (hroom : payloadBytes (gathered ops s.seen (s.ahead r)) ≤ kMaxBufferedTransactionBytes)
    (hsame : complete ops (s.ahead r) = complete ops s.seen) :
    OnlyBeginningsPending held ops
      { follower := s.follower.intake new rest
        received := s.received ++ r.chunk
        acks := s.acks } := by
  have hbegun : begun ops (s.ahead r) = s.follower.pending ++ new := by
    rw [h.pending, ← hb.kept, begun, gathered, gathered, hsame]
  have hbytes : (s.follower.intake new rest).pendingBytes
      = payloadBytes (s.follower.pending ++ new) := by
    rw [payloadBytes_append, ← h.bytes]
    exact Follower.pendingBytes_noteAll s.follower new
  refine ⟨rfl, hb.received, h.stream_next hb, ?_, ?_, ?_, ?_, ?_, ?_⟩
  · rw [Follower.intake_pending, hbegun]
  · rw [hbytes, Follower.intake_pending]
  · rw [hbytes, h.pending, ← hb.kept]
    exact hroom
  · rw [Follower.intake_insideTransaction, Follower.intake_pending, List.foldl_append, ← h.flag]
  · show Holds (s.follower.intake new rest) (held ++ complete ops (s.ahead r))
    rw [hsame]
    exact ⟨by rw [Follower.intake_store]; exact h.holds.file,
      by rw [Follower.intake_store]; exact h.holds.offset,
      by rw [Follower.intake_store, Follower.intake_applier]; exact h.holds.meaning⟩
  · show (complete ops (s.ahead r)).flatMap Op.bytes ≠ [] → _
    rw [hsame, Follower.intake_store]
    exact h.acked

omit hb in
theorem lands_of_clean {io : Io} (h : io.Clean) (mode : FsyncMode) (n : Nat) : Lands mode io n := by
  refine ⟨?_, fun _ => h.2⟩
  have hall := writeAll_accepts io.writes [] (List.replicate n 0)
  rw [writeAll_clean h.1, List.length_replicate] at hall
  exact of_decide_eq_true (congrArg Prod.snd hall).symm

/-- What is gathered is whole operations, and is written. -/
theorem OnlyBeginningsPending.flush (hlog : cfg.logEnabled = true) (hfit : ∀ op ∈ ops, op.Fits)
    (h : OnlyBeginningsPending held ops s) (hio : r.io.Clean) (hbegun : begun ops (s.ahead r) = [])
    (hsome : gathered ops s.seen (s.ahead r) ≠ []) :
    ∃ g, (s.follower.intake new rest).flushPending r.io = (g, .ok ())
      ∧ OnlyBeginningsPending held ops
        { follower := g
          received := s.received ++ r.chunk
          acks := s.acks ++ [g.store.logOffset] } := by
  have hwhole : gathered ops s.seen (s.ahead r) = more.flatMap Op.payloads := by
    rw [hb.whole, hbegun, List.append_nil]
  have hpending : (s.follower.intake new rest).pending = more.flatMap Op.payloads := by
    rw [Follower.intake_pending, h.pending, ← hb.kept, hwhole]
  have hrun : Meaning.run (s.follower.intake new rest).pending
      (RecordApplier.meaning
        ((s.follower.intake new rest).applier, (s.follower.intake new rest).store))
      = some
        { map := Meaning.applyOps (held ++ complete ops (s.ahead r)) (ShardedMap.init _) } := by
    rw [hpending, Follower.intake_applier, Follower.intake_store, h.holds.meaning,
      Meaning.run_ops (hb.fits hfit), hb.operations, ← List.append_assoc,
      Meaning.applyOps_append _ more]
  obtain ⟨applier, store, hflushed, hfile, hoffset, hmeaning⟩ :=
    Follower.flushPending_ok hlog (s.follower.intake new rest)
      (by rw [hpending, ← hwhole]; exact hsome) (lands_of_clean hio cfg.fsyncMode _) hrun
  have hbytes : store.log.file
      = (held ++ complete ops (s.ahead r)).flatMap Op.bytes := by
    rw [hfile, Follower.intake_store, h.holds.file, hpending, hb.operations, ← List.append_assoc,
      ← frames_flatMap more, ← List.flatMap_append]
  have hlength : store.log.offset = store.log.file.length := by
    rw [hoffset, hfile, Follower.intake_store, h.holds.offset, List.length_append]
  refine ⟨_, hflushed, rfl, hb.received, h.stream_next hb, hbegun.symm, rfl, Nat.zero_le _, ?_,
    ⟨hbytes, hlength, hmeaning⟩, fun _ => ?_⟩
  · show (s.follower.intake new rest).insideTransaction = false
    rw [Follower.intake_insideTransaction, h.flag, h.pending, ← List.foldl_append, ← hb.kept]
    exact (flag_gathered hfit (s.seen_le_ahead r)).mpr hbegun
  · show (s.acks ++ [store.logOffset]).getLast? = some store.log.file.length
    rw [List.getLast?_concat, Store.logOffset, if_pos hlog, hlength]

/-- A read that leaves nothing gathered has completed nothing. -/
theorem Brings.complete_eq (hnone : gathered ops s.seen (s.ahead r) = []) :
    complete ops (s.ahead r) = complete ops s.seen := by
  have hmore := (List.append_eq_nil_iff.mp (hb.whole.symm.trans hnone)).1
  refine complete_eq_of_length (s.seen_le_ahead r) ?_
  rw [hb.operations, List.flatMap_append, frames_flatMap more, hmore]
  exact congrArg List.length (List.append_nil _)

end Brings

/--
**The three outcomes of a read.** The limit is exceeded; or the follower has caught up
again; or it has left its log as it was, with operations complete that are not in it.
-/
theorem onlyBeginningsPending_step (hlog : cfg.logEnabled = true) (hfit : ∀ op ∈ ops, op.Fits)
    (h : OnlyBeginningsPending held ops s) (hs : step ops s r = some s') :
    (kMaxBufferedTransactionBytes < payloadBytes (gathered ops s.seen (s.ahead r))
        ∧ s'.dropped = some .overLimit)
      ∨ (payloadBytes (gathered ops s.seen (s.ahead r)) ≤ kMaxBufferedTransactionBytes
        ∧ Settles ops s.seen (s.ahead r) ∧ OnlyBeginningsPending held ops s')
      ∨ (payloadBytes (gathered ops s.seen (s.ahead r)) ≤ kMaxBufferedTransactionBytes
        ∧ ¬ Settles ops s.seen (s.ahead r) ∧ s'.dropped = none
        ∧ s'.received = s.received ++ r.chunk
        ∧ s'.follower.store.log.file = s.follower.store.log.file) := by
  unfold step at hs
  split at hs
  · rename_i hguard
    obtain ⟨-, -, -, hio, hpre⟩ := hguard
    obtain ⟨new, more, rest, hb⟩ := h.brings hfit hpre
    rw [h.receive hb hfit] at hs
    by_cases hroom : payloadBytes (gathered ops s.seen (s.ahead r)) ≤ kMaxBufferedTransactionBytes
    · rw [if_pos hroom] at hs
      by_cases hflush : begun ops (s.ahead r) = [] ∧ gathered ops s.seen (s.ahead r) ≠ []
      · obtain ⟨g, hg, hcaught⟩ := h.flush hb hlog hfit hio hflush.1 hflush.2
        rw [if_pos hflush, hg] at hs
        cases hs
        exact .inr (.inl ⟨hroom, .inl hflush.1, hcaught⟩)
      · rw [if_neg hflush] at hs
        cases hs
        rw [Option.toList_none, List.append_nil]
        by_cases hsettles : Settles ops s.seen (s.ahead r)
        · have hsame : complete ops (s.ahead r) = complete ops s.seen := by
            rcases hsettles with hbegun | hsame
            · -- it was not written, so there was nothing to write
              exact hb.complete_eq (not_not.mp fun hne => hflush ⟨hbegun, hne⟩)
            · exact hsame
          exact .inr (.inl ⟨hroom, hsettles, h.keep hb hroom hsame⟩)
        · exact .inr (.inr ⟨hroom, hsettles, rfl, rfl, by rw [Follower.intake_store]⟩)
    · rw [if_neg hroom] at hs
      cases hs
      exact .inl ⟨Nat.not_le.mp hroom, rfl⟩
  · exact absurd hs (by simp)

/-- There are no reads on a link that is gone. -/
theorem step_dropped {e : Drop} (h : s.dropped = some e) (r : Read) : step ops s r = none :=
  if_neg fun hguard => absurd (h.symm.trans hguard.1) (by simp)

/-- A link that was given up for the limit is as it should be if a transaction exceeds it. -/
theorem prompt_dropped (h : s.dropped = some .overLimit) (hop : ∃ op ∈ ops, Oversized op) :
    Prompt held ops s :=
  ⟨fun _ he => ⟨Option.some.inj (he.symm.trans h), hop⟩,
    fun hnone => absurd (h.symm.trans hnone) (by simp)⟩

/-- **The condition is exact**: after a read that meets it all is well, and after no other. -/
theorem prompt_step_iff (hlog : cfg.logEnabled = true) (hfit : ∀ op ∈ ops, op.Fits)
    (h : OnlyBeginningsPending held ops s) (hs : step ops s r = some s') :
    Prompt held ops s' ↔ Meets ops s r := by
  unfold Meets
  rcases onlyBeginningsPending_step hlog hfit h hs with
    ⟨hover, hdropped⟩ | ⟨hroom, hsettles, hcaught⟩ | ⟨hroom, hnot, hdropped, hreceived, hfile⟩
  · rw [if_neg (Nat.not_le.mpr hover)]
    exact ⟨fun hprompt => (hprompt.dropped _ hdropped).2, prompt_dropped hdropped⟩
  · rw [if_pos hroom]
    exact iff_of_true hcaught.prompt hsettles
  · rw [if_pos hroom]
    refine iff_of_false (fun hprompt => hnot (.inr ?_)) hnot
    -- the log would have to hold more than it did
    have hlogged := (hprompt.upToDate hdropped).logged
    have hseen : s'.seen = s.ahead r := congrArg List.length hreceived
    rw [hfile, h.holds.file, hseen, List.flatMap_append, List.flatMap_append] at hlogged
    exact complete_eq_of_length (s.seen_le_ahead r)
      (congrArg List.length (List.append_cancel_left hlogged)).symm

/-- Until the link is given up, nothing is held back. -/
theorem onlyBeginningsPending_reachable (hlog : cfg.logEnabled = true) (hfit : ∀ op ∈ ops, op.Fits)
    (h : (system cfg held ops).ReachableBy (Meets ops) s) :
    OnlyBeginningsPending held ops s
      ∨ (s.dropped = some .overLimit ∧ ∃ op ∈ ops, Oversized op) := by
  refine h.invariant (I := fun s =>
    OnlyBeginningsPending held ops s ∨ (s.dropped = some .overLimit ∧ ∃ op ∈ ops, Oversized op))
    (fun s hs => .inl (onlyBeginningsPending_init hs)) fun s r s' hor hmeets hs => ?_
  rcases hor with hcaught | ⟨hdropped, -⟩
  · unfold Meets at hmeets
    rcases onlyBeginningsPending_step hlog hfit hcaught hs with
      ⟨hover, hdropped⟩ | ⟨-, -, hcaught'⟩ | ⟨hroom, hnot, -, -, -⟩
    · rw [if_neg (Nat.not_le.mpr hover)] at hmeets
      exact .inr ⟨hdropped, hmeets⟩
    · exact .inl hcaught'
    · rw [if_pos hroom] at hmeets
      exact absurd hmeets hnot
  · exact absurd ((step_dropped hdropped r).symm.trans hs) (by simp)

end OnlyBeginningsPending

/--
**A follower holds nothing back** as long as every read meets the condition: then the link
is given up only for a transaction that is larger than the limit, and until then every
operation that is complete has been logged, applied and acknowledged. A read that does
not meet the condition breaks this.
-/
theorem follower_prompt (hlog : cfg.logEnabled = true) {held ops : List Op}
    (hfit : ∀ op ∈ ops, op.Fits) {s : State cfg}
    (h : (system cfg held ops).ReachableBy (Meets ops) s) :
    Prompt held ops s
      ∧ ∀ r s', step ops s r = some s' → (Prompt held ops s' ↔ Meets ops s r) := by
  rcases onlyBeginningsPending_reachable hlog hfit h with hcaught | ⟨hdropped, hop⟩
  · exact ⟨hcaught.prompt, fun r s' hs => prompt_step_iff hlog hfit hcaught hs⟩
  · exact ⟨prompt_dropped hdropped hop,
      fun r s' hs => absurd ((step_dropped hdropped r).symm.trans hs) (by simp)⟩

/-- A plain record, and a transaction. -/
def mixed : List Op := [.set [97] [49], .commitTransaction 1 [{ key := [98], value := [50] }]]

/-- Cut in front of the end of the first record of the transaction, and behind the second. -/
def cutWell : List Read :=
  let stream := mixed.flatMap Op.bytes
  [{ chunk := stream.take 30, io := { writes := [.accepted 3, .interrupted] } },
    { chunk := (stream.drop 30).take 30 }, { chunk := stream.drop 60 }]

theorem holds_fresh : Holds ({} : Follower standalone) [] := ⟨rfl, rfl, rfl⟩

theorem follower_prompt_cutWell :
    ∃ s, (system standalone [] mixed).ReachableBy (Meets mixed) s
      ∧ s.received = mixed.flatMap Op.bytes ∧ s.acks.length = 2 ∧ UpToDate [] mixed s := by
  obtain ⟨s, hreach, hreceived, hacks, hdropped⟩ := System.exists_reachableBy
    (p := fun s : State standalone => s.received = mixed.flatMap Op.bytes ∧ s.acks.length = 2
      ∧ s.dropped = none)
    (show (system standalone [] mixed).ReachableBy (Meets mixed) _ from
      .init ⟨{}, holds_fresh, ⟨rfl, rfl, rfl⟩, rfl, rfl⟩)
    cutWell (by decide +kernel) (by decide +kernel)
  exact ⟨s, hreach, hreceived, hacks,
    (follower_prompt rfl (by decide) hreach).1.upToDate hdropped⟩

/-! ## Reads that do harm -/

/-- A record as large as a record may be, and a small one. -/
def flood : List Op := [.set [] (List.replicate (kMaxPayloadBytes - 9) 97), .del []]

/-- The two records of `flood`. -/
theorem flood_payloads :
    ∃ p q : Bytes,
      flood.flatMap Op.payloads = [p, q] ∧ p.length = kMaxPayloadBytes ∧ q.length = 5 := by
  refine ⟨_, _, rfl, ?_, ?_⟩
  · rw [Command.serialize, length_appendBlob, length_appendBlob, List.length_replicate]
    decide
  · rw [Command.serialize, length_appendBlob]
    rfl

theorem flood_length :
    (flood.flatMap Op.bytes).length = 2 * kHeaderBytes + kMaxPayloadBytes + 5 := by
  obtain ⟨p, q, hpayloads, hp, hq⟩ := flood_payloads
  rw [frames_flatMap, hpayloads]
  simp only [frames, List.flatMap_cons, List.flatMap_nil, List.length_append, length_frame, hp, hq,
    List.length_nil]
  omega

theorem flood_fits : ∀ op ∈ flood, op.Fits := by
  obtain ⟨p, q, hpayloads, hp, hq⟩ := flood_payloads
  intro op hop payload hpayload
  have hmem : payload ∈ flood.flatMap Op.payloads := List.mem_flatMap.mpr ⟨op, hop, hpayload⟩
  rw [hpayloads] at hmem
  rcases List.mem_cons.mp hmem with rfl | hmem
  · exact hp.le
  · rw [List.mem_singleton.mp hmem, hq]
    decide

/-- Before the last byte of the first record nothing is complete. -/
theorem flood_nothing {n : Nat} (h : n < kHeaderBytes + kMaxPayloadBytes) :
    complete flood n = [] ∧ arrived flood n = [] := by
  obtain ⟨p, q, hpayloads, hp, -⟩ := flood_payloads
  have harrived : arrived flood n = [] := by
    rw [arrived, hpayloads, fitting, if_neg]
    rw [length_frame, hp]
    omega
  refine ⟨?_, harrived⟩
  -- the records of what is complete have arrived
  have hnone := complete_payloads_prefix flood (le_refl n)
  rw [harrived, List.prefix_nil, List.flatMap_eq_nil_iff] at hnone
  cases hcomplete : complete flood n with
  | nil => rfl
  | cons op more =>
      have hmem : op ∈ complete flood n := by
        rw [hcomplete]
        exact List.mem_cons_self ..
      have hempty := hnone op hmem
      have hin := (complete_front flood n).subset hmem
      simp only [flood, List.mem_cons, List.not_mem_nil, or_false] at hin
      rcases hin with rfl | rfl
      · exact absurd hempty (by simp [Op.payloads])
      · exact absurd hempty (by simp [Op.payloads])

/-- A read of what comes next is always possible on a link that is up. -/
theorem exists_step {ops : List Op} {s : State cfg} (hopen : s.dropped = none) {chunk : Bytes}
    (hne : chunk ≠ []) (hle : chunk.length ≤ kReadChunkBytes)
    (hpre : s.received ++ chunk <+: ops.flatMap Op.bytes) :
    ∃ s', step ops s { chunk := chunk } = some s' ∧ s'.received = s.received ++ chunk := by
  have hclean : ({} : Io).Clean := by decide
  rw [step, if_pos ⟨hopen, hne, hle, hclean, hpre⟩]
  split
  · exact ⟨_, rfl, rfl⟩
  · exact ⟨_, rfl, rfl⟩

/-- The first record trickles in. -/
theorem flood_trickles {n : Nat} (h : n < kHeaderBytes + kMaxPayloadBytes) :
    ∃ s : State standalone,
      (system standalone [] flood).Reachable s ∧ OnlyBeginningsPending [] flood s
      ∧ s.received = (flood.flatMap Op.bytes).take n := by
  induction n with
  | zero =>
      have hinit : (system standalone [] flood).init { follower := {} } :=
        ⟨{}, holds_fresh, ⟨rfl, rfl, rfl⟩, rfl, rfl⟩
      exact ⟨_, .init hinit, onlyBeginningsPending_init hinit, rfl⟩
  | succ n ih =>
      obtain ⟨s, hreach, hcaught, hreceived⟩ := ih (by omega)
      have hlong : n < (flood.flatMap Op.bytes).length := by
        rw [flood_length]
        omega
      have hnext : s.received ++ [(flood.flatMap Op.bytes)[n]]
          = (flood.flatMap Op.bytes).take (n + 1) := by
        rw [hreceived]
        exact List.take_concat_get' _ n hlong
      obtain ⟨s', hs, hreceived'⟩ := exists_step hcaught.open_
        (List.cons_ne_nil (flood.flatMap Op.bytes)[n] []) (by rw [List.length_singleton]; decide)
        (by rw [hnext]; exact List.take_prefix _ _)
      refine ⟨s', hreach.tail trivial hs, ?_, hreceived'.trans hnext⟩
      have hahead : s.ahead { chunk := [(flood.flatMap Op.bytes)[n]] } = n + 1 := by
        rw [State.ahead, hnext, List.length_take]
        omega
      -- nothing has arrived, so there is nothing to hold back
      have hgathered (k : Nat) : gathered flood k (n + 1) = [] := by
        rw [gathered, (flood_nothing h).2, List.drop_nil]
      rcases onlyBeginningsPending_step rfl flood_fits hcaught hs with
        ⟨hover, -⟩ | ⟨-, -, hcaught'⟩ | ⟨-, hnot, -⟩
      · rw [hahead, hgathered] at hover
        exact absurd hover (by decide)
      · exact hcaught'
      · rw [hahead] at hnot
        exact absurd (.inl (hgathered _)) hnot

/-- The end of the first record comes with the second, and both together are too much. -/
theorem flood_drops :
    ∃ s : State standalone, (system standalone [] flood).Reachable s
      ∧ s.dropped = some .overLimit := by
  obtain ⟨p, q, hpayloads, hp, hq⟩ := flood_payloads
  have hbefore : kHeaderBytes + kMaxPayloadBytes - 1 < kHeaderBytes + kMaxPayloadBytes := by decide
  obtain ⟨s, hreach, hcaught, hreceived⟩ := flood_trickles hbefore
  have hseen : s.seen = kHeaderBytes + kMaxPayloadBytes - 1 := by
    rw [State.seen, hreceived, List.length_take, flood_length]
    omega
  obtain ⟨last, hlast, hall⟩ : ∃ last, last.length = 14
      ∧ s.received ++ last = flood.flatMap Op.bytes := by
    refine ⟨(flood.flatMap Op.bytes).drop (kHeaderBytes + kMaxPayloadBytes - 1), ?_, ?_⟩
    · rw [List.length_drop, flood_length]
      decide
    · rw [hreceived]
      exact List.take_append_drop _ _
  have hpre : s.received ++ last <+: flood.flatMap Op.bytes := ⟨[], by rw [List.append_nil, hall]⟩
  obtain ⟨s', hs, -⟩ := exists_step hcaught.open_
    (List.ne_nil_of_length_pos (by rw [hlast]; decide)) (by rw [hlast]; decide) hpre
  refine ⟨s', hreach.tail trivial hs, ?_⟩
  -- nothing was complete before, so both records are gathered
  have hgathered : gathered flood s.seen (s.ahead { chunk := last }) = [p, q] := by
    rw [gathered, State.ahead, hall, arrived_all, hpayloads, hseen, (flood_nothing hbefore).1]
    rfl
  have hover : ¬ payloadBytes [p, q] ≤ kMaxBufferedTransactionBytes := by
    have hsum : payloadBytes [p, q] = kMaxPayloadBytes + 5 := by simp [payloadBytes, hp, hq]
    rw [hsum]
    decide
  rw [← hgathered] at hover
  rcases onlyBeginningsPending_step rfl flood_fits hcaught hs with
    ⟨-, hdropped⟩ | ⟨hroom, -⟩ | ⟨hroom, -⟩
  · exact hdropped
  · exact absurd hroom hover
  · exact absurd hroom hover

/-- One read brings the plain record, and the marker that opens the transaction. -/
def cutBadly : List Read := [{ chunk := (mixed.flatMap Op.bytes).take 36 }]

/--
**Reads that do harm.** A record that has arrived is neither logged nor acknowledged, since a
transaction has begun behind it; and a link is given up for the sake of the limit without
any transaction at all.
-/
theorem follower_holds_back :
    ((∀ op ∈ mixed, op.Fits ∧ ¬ Oversized op)
      ∧ ∃ s, (system standalone [] mixed).Reachable s
        ∧ complete mixed s.seen = [.set [97] [49]] ∧ s.dropped = none
        ∧ s.follower.store.log.file = [] ∧ s.acks = [])
      ∧ (∀ op ∈ flood, op.Fits ∧ ¬ Oversized op)
      ∧ ∃ s, (system standalone [] flood).Reachable s ∧ s.dropped = some .overLimit := by
  refine ⟨⟨by decide, ?_⟩, fun op hop => ⟨flood_fits op hop, ?_⟩, flood_drops⟩
  · exact System.exists_reachableBy
      (p := fun s : State standalone => complete mixed s.seen = [.set [97] [49]] ∧ s.dropped = none
        ∧ s.follower.store.log.file = [] ∧ s.acks = [])
      (show (system standalone [] mixed).Reachable _ from
        .init ⟨{}, holds_fresh, ⟨rfl, rfl, rfl⟩, rfl, rfl⟩)
      cutBadly (by decide +kernel) (by decide +kernel)
  · simp only [flood, List.mem_cons, List.not_mem_nil, or_false] at hop
    rcases hop with rfl | rfl
    · exact id
    · exact id

end Feed

end KvStore.Repl
