import KvStore.Lib.Lines
import KvStore.Repl.Leader

/-!
# Reading acknowledgements

`drainAcks` appends what it reads to what it has, and looks at the size of the whole
before it takes any line off. What it has is the beginning of one line, and short; but a
read can bring as many bytes as a control line may have at all, and then there is no
room for the beginning. So a follower can be disconnected for a burst of
acknowledgements, each of them in order.

It is never disconnected for anything else, and nothing it has acknowledged is lost.
-/

namespace KvStore.Repl

open Lib

/-! ## Lines of acknowledgements -/

/-- The offset in a line, if it is an acknowledgement. -/
def ackOf (line : Bytes) : Option Nat :=
  if ascii "ACK " <+: line then stoull (line.drop 4) else none

/-- What a line does to the highest offset of one call. -/
def raise (highest : Option Nat) (line : Bytes) : Option Nat :=
  match ackOf line with
  | some offset => some (max offset (highest.getD 0))
  | none => highest

/-- What a line does to what has been acknowledged. -/
def noteLine (acked : Nat) (line : Bytes) : Nat := max acked ((ackOf line).getD 0)

theorem getD_raise (highest : Option Nat) (line : Bytes) :
    (raise highest line).getD 0 = max (highest.getD 0) ((ackOf line).getD 0) := by
  unfold raise
  cases ackOf line with
  | none => exact (Nat.max_zero _).symm
  | some offset => exact Nat.max_comm _ _

/-- One line is read. -/
theorem drainLines_cut {fuel : Nat} {buffer line rest : Bytes} {highest : Option Nat}
    (h : cutLine newline buffer = some (line, rest)) :
    drainLines (fuel + 1) buffer highest = drainLines fuel rest (raise highest line) := by
  obtain ⟨rfl, hline⟩ := cutLine_eq_some.mp h
  obtain ⟨htake, hdrop⟩ := cut_line hline rest
  rw [drainLines, if_pos (by simp)]
  dsimp only
  rw [htake, hdrop, raise, ackOf]
  split
  · cases stoull (line.drop 4) with
    | none => rfl
    | some offset => rfl
  · rfl

/-- The loop reads every line that is complete, and leaves the rest. -/
theorem drainLines_eq {fuel : Nat} {buffer : Bytes} (highest : Option Nat)
    (hfuel : buffer.length ≤ fuel) :
    drainLines fuel buffer highest
      = ((splitLines newline buffer).1.foldl raise highest, (splitLines newline buffer).2) := by
  induction fuel generalizing buffer highest with
  | zero =>
      obtain rfl := List.length_eq_zero_iff.mp (Nat.le_zero.mp hfuel)
      rfl
  | succ fuel ih =>
      cases hcut : cutLine newline buffer with
      | none =>
          rw [splitLines_of_cutLine_none hcut, drainLines, if_neg (cutLine_eq_none.mp hcut)]
          rfl
      | some r =>
          obtain ⟨line, rest⟩ := r
          have hlen := length_of_cutLine hcut
          rw [drainLines_cut hcut, ih _ (by omega), splitLines_of_cutLine hcut]
          rfl

theorem max_foldl_raise (lines : List Bytes) (acked : Nat) (highest : Option Nat) :
    max acked ((lines.foldl raise highest).getD 0)
      = lines.foldl noteLine (max acked (highest.getD 0)) := by
  induction lines generalizing highest with
  | nil => rfl
  | cons line lines ih =>
      rw [List.foldl_cons, ih, getD_raise, List.foldl_cons, noteLine, Nat.max_assoc]

/-! ## One read -/

namespace Session

/-- Whatever is read: the call fails for its size only, and takes in every line otherwise. -/
theorem drainAcks_spec (s : Session) (bytes : Bytes) :
    ((s.drainAcks bytes).2 = true ↔ s.ackBuffer.length + bytes.length ≤ kMaxControlLine)
      ∧ ((s.drainAcks bytes).2 = true →
        (s.drainAcks bytes).1.ackBuffer = (splitLines newline (s.ackBuffer ++ bytes)).2
          ∧ (s.drainAcks bytes).1.acked
            = (splitLines newline (s.ackBuffer ++ bytes)).1.foldl noteLine s.acked) := by
  unfold drainAcks
  dsimp only
  rw [← List.length_append]
  split
  · rename_i hlong
    exact ⟨iff_of_false (by simp) (by omega), fun h => absurd h (by simp)⟩
  · rename_i hfits
    have hmax := max_foldl_raise (splitLines newline (s.ackBuffer ++ bytes)).1 s.acked none
    rw [Option.getD_none, Nat.max_zero] at hmax
    rw [drainLines_eq none (Nat.le_refl _), ← hmax]
    dsimp only
    split
    · rename_i hnone
      rw [hnone]
      exact ⟨iff_of_true rfl (by omega), fun _ => ⟨rfl, (Nat.max_zero _).symm⟩⟩
    · rename_i highest hsome
      rw [hsome]
      exact ⟨iff_of_true rfl (by omega), fun _ => ⟨rfl, rfl⟩⟩

theorem le_foldl_noteLine (lines : List Bytes) (acked : Nat) :
    acked ≤ lines.foldl noteLine acked := by
  induction lines generalizing acked with
  | nil => exact Nat.le_refl _
  | cons line lines ih => exact (Nat.le_max_left _ _).trans (ih _)

/-- What has been acknowledged stays so. -/
theorem acked_le_drainAcks (s : Session) (bytes : Bytes) :
    s.acked ≤ (s.drainAcks bytes).1.acked := by
  cases hok : (s.drainAcks bytes).2 with
  | true =>
      rw [((drainAcks_spec s bytes).2 hok).2]
      exact le_foldl_noteLine _ _
  | false =>
      -- a call that fails counts nothing
      have hlong : ¬ s.ackBuffer.length + bytes.length ≤ kMaxControlLine := by
        rw [← (drainAcks_spec s bytes).1, hok]
        simp
      unfold drainAcks
      rw [if_pos (by rw [List.length_append]; omega)]

/-! ## All reads -/

/-- One call of `drainAcks` for every read. -/
def feed (s : Session) (pieces : List Bytes) : Session :=
  pieces.foldl (fun s piece => (s.drainAcks piece).1) s

end Session

/-- What is there of a line that is not complete. -/
def carried (bytes : Bytes) : Bytes := (splitLines newline bytes).2

theorem carried_append (a b : Bytes) : carried (a ++ b) = carried (carried a ++ b) := by
  unfold carried
  rw [splitLines_append]

/-- What is so for every read is so for the first, and for those behind it. -/
theorem forall_reads_cons {P : Nat → Bytes → Prop} {piece : Bytes} {pieces : List Bytes} :
    (∀ i p, (piece :: pieces)[i]? = some p → P i p)
      ↔ P 0 piece ∧ ∀ i p, pieces[i]? = some p → P (i + 1) p := by
  constructor
  · intro h
    exact ⟨h 0 piece rfl, fun i p hp => h (i + 1) p (by rw [List.getElem?_cons_succ, hp])⟩
  · rintro ⟨hzero, hsucc⟩ i p hp
    cases i with
    | zero =>
        obtain rfl := Option.some.inj hp
        exact hzero
    | succ i => exact hsucc i p (by rwa [List.getElem?_cons_succ] at hp)

namespace Session

/-- No read is refused, if and only if every read leaves room for what was carried over to it. -/
theorem feed_ok_iff {s : Session} (before : Bytes) (hbuffer : s.ackBuffer = carried before)
    (pieces : List Bytes) :
    (∀ i p, pieces[i]? = some p → ((s.feed (pieces.take i)).drainAcks p).2 = true)
      ↔ ∀ i p, pieces[i]? = some p →
        (carried (before ++ (pieces.take i).flatten)).length + p.length ≤ kMaxControlLine := by
  induction pieces generalizing s before with
  | nil => simp
  | cons piece pieces ih =>
      rw [forall_reads_cons, forall_reads_cons]
      obtain ⟨hsize, hbehind⟩ := drainAcks_spec s piece
      rw [hbuffer] at hsize hbehind
      have hfirst : ((s.feed ((piece :: pieces).take 0)).drainAcks piece).2 = true
          ↔ (carried (before ++ ((piece :: pieces).take 0).flatten)).length + piece.length
            ≤ kMaxControlLine := by
        rw [List.take_zero, List.flatten_nil, List.append_nil]
        exact hsize
      rw [← hfirst]
      refine and_congr_right fun hok => ?_
      -- what is carried over depends on what has come, not on how it was cut
      have hnext : (s.drainAcks piece).1.ackBuffer = carried (before ++ piece) := by
        rw [carried_append, (hbehind hok).1]
        rfl
      have hrest := ih _ hnext
      simp only [List.append_assoc] at hrest
      simp only [List.take_succ_cons, List.flatten_cons]
      exact hrest

/-- While no read is refused, every line counts, however it was cut. -/
theorem feed_acked {s : Session} (before : Bytes) (hbuffer : s.ackBuffer = carried before)
    {pieces : List Bytes}
    (hok : ∀ i p, pieces[i]? = some p → ((s.feed (pieces.take i)).drainAcks p).2 = true) :
    (s.feed pieces).acked
      = (splitLines newline (s.ackBuffer ++ pieces.flatten)).1.foldl noteLine s.acked := by
  induction pieces generalizing s before with
  | nil =>
      have hnone : splitLines newline (s.ackBuffer ++ ([] : List Bytes).flatten)
          = ([], s.ackBuffer) := by
        rw [List.flatten_nil, List.append_nil, hbuffer]
        exact splitLines_of_cutLine_none (cutLine_eq_none.mpr (not_mem_splitLines _ _))
      rw [hnone]
      rfl
  | cons piece pieces ih =>
      obtain ⟨hfirst, hrest⟩ := forall_reads_cons.mp hok
      obtain ⟨hkept, hacked⟩ := (drainAcks_spec s piece).2 hfirst
      have hnext := ih (s.ackBuffer ++ piece) hkept hrest
      have hfeed : s.feed (piece :: pieces) = (s.drainAcks piece).1.feed pieces := rfl
      rw [hfeed, hnext, hkept, hacked, List.flatten_cons, ← List.append_assoc,
        splitLines_append newline (s.ackBuffer ++ piece), List.foldl_append]

end Session

/-! ## Acknowledgements only -/

theorem splitLines_acks (offsets : List Nat) :
    splitLines newline (offsets.flatMap ackLine)
      = (offsets.map fun offset => ascii "ACK " ++ toDecimal offset, []) := by
  have hend : ascii "\n" = [newline] := by decide
  have hack : ackLine = fun offset => (ascii "ACK " ++ toDecimal offset) ++ [newline] := by
    funext offset
    rw [ackLine, hend]
  have hjoin : offsets.flatMap ackLine
      = (offsets.map fun offset => ascii "ACK " ++ toDecimal offset).flatMap
        fun line => line ++ [newline] := by
    rw [List.flatMap_map, hack]
  rw [hjoin, splitLines_join]
  intro line hline
  obtain ⟨offset, -, rfl⟩ := List.mem_map.mp hline
  rw [List.mem_append, not_or]
  exact ⟨by decide, (plain_toDecimal offset).2⟩

theorem noteLine_ack (acked : Nat) {offset : Nat} (h : offset < 2 ^ 64) :
    noteLine acked (ascii "ACK " ++ toDecimal offset) = max acked offset := by
  have hnumber : (ascii "ACK " ++ toDecimal offset).drop 4 = toDecimal offset :=
    List.drop_left' (by decide)
  rw [noteLine, ackOf, if_pos (List.prefix_append _ _), hnumber, stoull_toDecimal, if_pos h]
  rfl

theorem foldl_noteLine_acks {offsets : List Nat} (h : ∀ offset ∈ offsets, offset < 2 ^ 64)
    (acked : Nat) :
    (offsets.map fun offset => ascii "ACK " ++ toDecimal offset).foldl noteLine acked
      = offsets.foldl max acked := by
  induction offsets generalizing acked with
  | nil => rfl
  | cons offset offsets ih =>
      obtain ⟨hfirst, hrest⟩ := List.forall_mem_cons.mp h
      rw [List.map_cons, List.foldl_cons, List.foldl_cons, noteLine_ack acked hfirst, ih hrest]

/--
**A follower that only acknowledges is kept, if and only if its reads leave room.** Its
lines are cut into reads anyhow. Then no call fails, what is acknowledged never goes
down, and in the end it is the highest offset that was sent, exactly if every read, with
what the reads before it left of a line, is at most as long as a control line may be.
-/
theorem acks_drained_iff {s : Session} (hfresh : s.ackBuffer = []) {offsets : List Nat}
    (hfit : ∀ offset ∈ offsets, offset < 2 ^ 64) {pieces : List Bytes}
    (hsent : pieces.flatten = offsets.flatMap ackLine) :
    ((∀ i p, pieces[i]? = some p → ((s.feed (pieces.take i)).drainAcks p).2 = true)
        ∧ (∀ i p, pieces[i]? = some p →
          (s.feed (pieces.take i)).acked ≤ ((s.feed (pieces.take i)).drainAcks p).1.acked)
        ∧ (s.feed pieces).acked = offsets.foldl max s.acked)
      ↔ ∀ i p, pieces[i]? = some p →
        (carried (pieces.take i).flatten).length + p.length ≤ kMaxControlLine := by
  have hiff := s.feed_ok_iff [] (by rw [hfresh]; rfl) pieces
  simp only [List.nil_append] at hiff
  rw [← hiff]
  refine ⟨fun h => h.1, fun hok => ⟨hok, fun i p _ => Session.acked_le_drainAcks _ _, ?_⟩⟩
  rw [Session.feed_acked [] (by rw [hfresh]; rfl) hok, hfresh, List.nil_append, hsent,
    splitLines_acks, foldl_noteLine_acks hfit]

/-- Two lines in three reads. -/
theorem acks_drained_iff_pieces :
    (({ acked := 7 } : Session).feed [ascii "ACK", ascii " 5\nACK 30", ascii "0\n"]).acked
      = 300 := by
  have hroom : ∀ i p, [ascii "ACK", ascii " 5\nACK 30", ascii "0\n"][i]? = some p →
      (carried ([ascii "ACK", ascii " 5\nACK 30", ascii "0\n"].take i).flatten).length + p.length
        ≤ kMaxControlLine := by
    rw [forall_reads_cons, forall_reads_cons, forall_reads_cons]
    exact ⟨by decide +kernel, by decide +kernel, by decide +kernel, fun i p hp => by simp at hp⟩
  exact ((acks_drained_iff rfl (by decide : ∀ offset ∈ [5, 300], offset < 2 ^ 64)
    (by decide +kernel)).mpr hroom).2.2

/-- Of a burst of short acknowledgements, the first read ends within a line, and the second is
full. -/
def burst : List Bytes :=
  let sent := (List.replicate 44 1).flatMap ackLine
  [sent.take 5, (sent.drop 5).take 256, sent.drop 261]

/-- **A burst of acknowledgements ends the session.** -/
theorem acks_refused_in_burst :
    burst.flatten = (List.replicate 44 1).flatMap ackLine
      ∧ (∀ p ∈ burst, p ≠ [] ∧ p.length ≤ kAckReadBytes)
      ∧ burst[1]?.map (fun p =>
        ((({} : Session).feed (burst.take 1)).drainAcks p).2) = some false := by
  decide +kernel

end KvStore.Repl
