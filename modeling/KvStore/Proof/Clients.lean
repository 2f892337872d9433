import KvStore.Net.EventLoop

/-!
# No client is forgotten

A client of the event loop gets its turn when the poller reports something about it,
and the poller reports what it was asked for. A client that wants neither input nor
room for output is never looked at again, and neither is one that waits for more
input while there is a line in its buffer and nobody is going to send more.

The flags change in many places. What keeps them in order is a condition that every
one of these places leaves behind: reading is paused only over unsent output, and a
client that is not paused has no line left.
-/

namespace KvStore.Net.EventLoop

open Lib
open Repl (ascii newline)

variable {σ : Type} {handle : Handler σ} {c c' : Client σ}

/-! ## Output as a list of bytes -/

namespace Client

theorem length_unsent (c : Client σ) : c.unsent.length = c.outbuf.length - c.outSent :=
  List.length_drop

theorem unsent_eq_nil : c.unsent = [] ↔ c.outbuf.length ≤ c.outSent := List.drop_eq_nil_iff

theorem unsent_push (c : Client σ) (text : Bytes) : (c.push text).unsent = c.unsent ++ text :=
  List.drop_append_of_le_length c.sent_le

theorem unsent_handled (c : Client σ) (r : Reply σ) (rest : Bytes) :
    (c.handled r rest).unsent = c.unsent ++ r.text := unsent_push c r.text

theorem unsent_sent (c : Client σ) (n : Nat) : (c.sent n).unsent = c.unsent.drop n := by
  show c.outbuf.drop (c.outSent + min n (c.outbuf.length - c.outSent)) = _
  rw [← List.drop_drop, ← length_unsent, unsent]
  rcases Nat.le_total n (c.outbuf.drop c.outSent).length with hle | hle
  · rw [Nat.min_eq_left hle]
  · rw [Nat.min_eq_right hle, List.drop_of_length_le hle, List.drop_length]

/-- Sending moves bytes from the one side to the other. -/
theorem written_sent (c : Client σ) (n : Nat) :
    (c.sent n).written ++ (c.sent n).unsent = c.written ++ c.unsent := by
  rw [unsent_sent]
  show c.written ++ c.unsent.take n ++ _ = _
  rw [List.append_assoc, List.take_append_drop]

end Client

/-! ## What the loops do -/

/-- What `processInput` makes of a client. -/
inductive Processed (handle : Handler σ) : Client σ → Client σ → Prop
  | closing {c : Client σ} (hclose : c.closeAfterFlush = true) : Processed handle c c
  | waiting {c : Client σ} (hopen : c.closeAfterFlush = false)
      (hnone : cutLine newline c.inbuf = none) (hlen : c.inbuf.length ≤ kMaxLineLength) :
      Processed handle c c
  | tooLong {c : Client σ} (hopen : c.closeAfterFlush = false)
      (hnone : cutLine newline c.inbuf = none) (hlen : kMaxLineLength < c.inbuf.length) :
      Processed handle c { c.push (ascii "-ERR line too long\n") with closeAfterFlush := true }
  | quit {c : Client σ} {line rest : Bytes} (hopen : c.closeAfterFlush = false)
      (hcut : cutLine newline c.inbuf = some (line, rest))
      (hquit : (handle c.session (chomp line)).quit = true) :
      Processed handle c
        { c.handled (handle c.session (chomp line)) rest with closeAfterFlush := true }
  | paused {c : Client σ} {line rest : Bytes} (hopen : c.closeAfterFlush = false)
      (hcut : cutLine newline c.inbuf = some (line, rest))
      (hquit : (handle c.session (chomp line)).quit = false)
      (hfull : kPauseReadingAboveBytes
        < (c.handled (handle c.session (chomp line)) rest).unsent.length) :
      Processed handle c
        { c.handled (handle c.session (chomp line)) rest with readingPaused := true }
  | next {c c' : Client σ} {line rest : Bytes} (hopen : c.closeAfterFlush = false)
      (hcut : cutLine newline c.inbuf = some (line, rest))
      (hquit : (handle c.session (chomp line)).quit = false)
      (hroom : (c.handled (handle c.session (chomp line)) rest).unsent.length
        ≤ kPauseReadingAboveBytes)
      (hrest : Processed handle (c.handled (handle c.session (chomp line)) rest) c') :
      Processed handle c c'

theorem processed_loop {fuel : Nat} (hfuel : c.inbuf.length < fuel) :
    Processed handle c (c.processLoop handle fuel) := by
  induction fuel generalizing c with
  | zero => exact absurd hfuel (Nat.not_lt_zero _)
  | succ fuel ih =>
      rw [Client.processLoop]
      split
      · rename_i hclose
        exact .closing hclose
      · rename_i hopen
        have hopen := Bool.eq_false_iff.mpr hopen
        split
        · rename_i hnone
          split
          · rename_i hlen
            exact .tooLong hopen hnone hlen
          · rename_i hlen
            exact .waiting hopen hnone (Nat.not_lt.mp hlen)
        · rename_i line rest hcut
          dsimp only
          split
          · rename_i hquit
            exact .quit hopen hcut hquit
          · rename_i hquit
            have hquit := Bool.eq_false_iff.mpr hquit
            rw [← Client.length_unsent]
            split
            · rename_i hfull
              exact .paused hopen hcut hquit hfull
            · rename_i hroom
              -- a line was taken off, so the fuel is still enough
              have hlen := length_of_cutLine hcut
              exact .next hopen hcut hquit (Nat.not_lt.mp hroom)
                (ih (show rest.length < fuel by omega))

theorem processed (handle : Handler σ) (c : Client σ) :
    Processed handle c (c.processInput handle) :=
  processed_loop (Nat.lt_succ_self _)

/-- What the loop of `flush` makes of a client: bytes go out, and the rest is as it was. -/
structure Wrote (c c' : Client σ) : Prop where
  bytes : c'.written ++ c'.unsent = c.written ++ c.unsent
  backlog : c'.unsent.length ≤ c.unsent.length
  session : c'.session = c.session
  inbuf : c'.inbuf = c.inbuf
  incoming : c'.incoming = c.incoming
  closing : c'.closeAfterFlush = c.closeAfterFlush
  paused : c'.readingPaused = c.readingPaused
  evicted : c'.evictedForBacklog = c.evictedForBacklog
  interest : c'.wantsRead = c.wantsRead ∧ c'.wantsWrite = c.wantsWrite
    ∧ c'.registered = c.registered

theorem wrote_sent (c : Client σ) (n : Nat) : Wrote c (c.sent n) := by
  refine ⟨c.written_sent n, ?_, rfl, rfl, rfl, rfl, rfl, rfl, rfl, rfl, rfl⟩
  rw [c.unsent_sent, List.length_drop]
  exact Nat.sub_le _ _

theorem Wrote.trans {c'' : Client σ} (h : Wrote c c') (h' : Wrote c' c'') : Wrote c c'' := by
  obtain ⟨hread, hwrite, hreg⟩ := h.interest
  obtain ⟨hread', hwrite', hreg'⟩ := h'.interest
  exact ⟨h'.bytes.trans h.bytes, h'.backlog.trans h.backlog, h'.session.trans h.session,
    h'.inbuf.trans h.inbuf, h'.incoming.trans h.incoming, h'.closing.trans h.closing,
    h'.paused.trans h.paused, h'.evicted.trans h.evicted, hread'.trans hread, hwrite'.trans hwrite,
      hreg'.trans hreg⟩

theorem wrote_refl (c : Client σ) : Wrote c c := by
  refine ⟨rfl, Nat.le_refl _, rfl, rfl, rfl, rfl, rfl, rfl, rfl, rfl, rfl⟩

/-- Without an error the loop goes on until everything is sent or the socket is full. -/
theorem wrote_loop (c : Client σ) (calls : List Call) :
    Wrote c (c.writeLoop calls).1 ∧ ((c.writeLoop calls).2 = false → .failed ∈ calls) := by
  induction calls generalizing c with
  | nil => exact ⟨wrote_sent c _, by simp [Client.writeLoop]⟩
  | cons call calls ih =>
      unfold Client.writeLoop
      split
      · cases call with
        | interrupted => exact ⟨(ih c).1, fun h => List.mem_cons_of_mem _ ((ih c).2 h)⟩
        | wouldBlock =>
            exact ⟨⟨rfl, Nat.le_refl _, rfl, rfl, rfl, rfl, rfl, rfl, rfl, rfl, rfl⟩, by simp⟩
        | failed => exact ⟨wrote_refl c, fun _ => List.mem_cons_self ..⟩
        | moved n =>
            obtain ⟨hwrote, hfailed⟩ := ih (c.sent (n + 1))
            exact ⟨(wrote_sent c (n + 1)).trans hwrote, fun h => List.mem_cons_of_mem _ (hfailed h)⟩
      · exact ⟨wrote_refl c, by simp⟩

/-- What the client is after the loop: with an empty buffer it goes on, if it had been paused. -/
inductive AfterWrites (handle : Handler σ) (c : Client σ) : Client σ → Prop
  | resumed {c' : Client σ} (hsent : c.unsent = []) (hpaused : c.readingPaused = true)
      (hprocessed : Processed handle
        { c with
          outbuf := [], outSent := 0, sent_le := Nat.zero_le _, readingPaused := false } c') :
      AfterWrites handle c c'
  | emptied (hsent : c.unsent = []) (hgo : c.readingPaused = false) :
      AfterWrites handle c { c with outbuf := [], outSent := 0, sent_le := Nat.zero_le _ }
  | moved (hmore : c.unsent ≠ []) :
      AfterWrites handle c { c with outbuf := c.unsent, outSent := 0, sent_le := Nat.zero_le _ }
  | left (hmore : c.unsent ≠ []) : AfterWrites handle c c

theorem afterWrites_effect (handle : Handler σ) (c : Client σ) :
    AfterWrites handle c (c.afterWrites handle) := by
  unfold Client.afterWrites
  split
  · rename_i hall
    have hsent := Client.unsent_eq_nil.mpr hall
    dsimp only
    split
    · rename_i hpaused
      exact .resumed hsent hpaused (processed handle _)
    · rename_i hgo
      exact .emptied hsent (Bool.eq_false_iff.mpr hgo)
  · rename_i hsome
    have hmore : c.unsent ≠ [] := fun hnil => hsome (Client.unsent_eq_nil.mp hnil)
    split
    · exact .moved hmore
    · exact .left hmore

/-- What `flush` makes of a client, and whether the connection still works. -/
inductive Flushed (handle : Handler σ) (c : Client σ) (calls : List Call) : Client σ × Bool → Prop
  | failed {c₁ : Client σ} (hwrote : Wrote c c₁) (hfailed : .failed ∈ calls) :
      Flushed handle c calls (c₁, false)
  | dropped {c₁ c₂ : Client σ} (hwrote : Wrote c c₁) (hafter : AfterWrites handle c₁ c₂)
      (hmuch : kMaxOutputBytes < c₂.unsent.length) :
      Flushed handle c calls ({ c₂ with evictedForBacklog := c₂.evictedForBacklog + 1 }, false)
  | flushed {c₁ c₂ : Client σ} (hwrote : Wrote c c₁) (hafter : AfterWrites handle c₁ c₂) :
      Flushed handle c calls (c₂.updateInterest, true)

theorem flush_effect (handle : Handler σ) (c : Client σ) (calls : List Call) :
    Flushed handle c calls (c.flush handle calls) := by
  obtain ⟨hwrote, hfailed⟩ := wrote_loop c calls
  unfold Client.flush
  split
  · rename_i c₁ heq
    rw [heq] at hwrote hfailed
    exact .failed hwrote (hfailed rfl)
  · rename_i c₁ heq
    rw [heq] at hwrote
    have hafter := afterWrites_effect handle c₁
    dsimp only
    rw [← Client.length_unsent]
    split
    · rename_i hmuch
      exact .dropped hwrote hafter hmuch
    · exact .flushed hwrote hafter

/-- What `readFrom` makes of a client, and what it says. -/
inductive Read (c : Client σ) (calls : List Call) : Client σ × Bool × Bool → Prop
  | nothing {ok : Bool} (hok : ok = false → .failed ∈ calls) : Read c calls (c, false, ok)
  | ended (hgo : c.readingPaused = false) (hend : c.incoming = []) : Read c calls (c, true, true)
  | chunk {bytes rest : Bytes} (hgo : c.readingPaused = false) (hbytes : c.incoming = bytes ++ rest)
      (hlen : bytes.length ≤ kReadChunk) (hne : bytes ≠ []) :
      Read c calls ({ c with inbuf := c.inbuf ++ bytes, incoming := rest }, false, true)

theorem read_effect (c : Client σ) (calls : List Call) : Read c calls (c.readFrom calls) := by
  induction calls with
  | nil => exact .nothing (by simp)
  | cons call calls ih =>
      unfold Client.readFrom
      split
      · exact .nothing (by simp)
      · rename_i hgo
        have hgo := Bool.eq_false_iff.mpr hgo
        cases call with
        -- `EINTR`: the call is made again
        | interrupted =>
            dsimp only
            generalize c.readFrom calls = r at ih
            cases ih with
            | nothing hok => exact .nothing fun h => List.mem_cons_of_mem _ (hok h)
            | ended hgo hend => exact .ended hgo hend
            | chunk hgo hbytes hlen hne => exact .chunk hgo hbytes hlen hne
        | wouldBlock => exact .nothing (by simp)
        | failed => exact .nothing fun _ => List.mem_cons_self ..
        | moved n =>
            dsimp only
            split
            · rename_i hnil
              -- a read has room for at least one byte, so nothing means the end
              refine .ended hgo ?_
              rcases List.take_eq_nil_iff.mp hnil with hzero | hend
              · have hpos : 0 < min (n + 1) kReadChunk := by rw [kReadChunk]; omega
                omega
              · exact hend
            · rename_i hne
              refine .chunk hgo (List.prefix_iff_eq_append.mp (List.take_prefix _ _)).symm ?_ hne
              exact (List.length_take_le _ _).trans (Nat.min_le_right _ _)

/-- What the branch for a readable socket makes of a client. -/
inductive Input (handle : Handler σ) (c : Client σ) (calls : Calls) : Client σ × Bool → Prop
  | readFailed (hfailed : .failed ∈ calls.reads) : Input handle c calls (c, false)
  | flushFailed {c₁ c' : Client σ} {peerClosed : Bool}
      (hread : Read c calls.reads (c₁, peerClosed, true))
      (hflush : (c₁.processInput handle).flush handle calls.writesAfter = (c', false)) :
      Input handle c calls (c', false)
  | served {c₁ c' : Client σ} (hread : Read c calls.reads (c₁, false, true))
      (hflush : (c₁.processInput handle).flush handle calls.writesAfter = (c', true)) :
      Input handle c calls (c', true)
  | ended {c' : Client σ} (hgo : c.readingPaused = false) (hend : c.incoming = [])
      (hflush : (c.processInput handle).flush handle calls.writesAfter = (c', true)) :
      Input handle c calls ({ c' with closeAfterFlush := true, readingPaused := true }, true)

theorem input_effect (handle : Handler σ) (c : Client σ) (calls : Calls) :
    Input handle c calls (onReadable handle c calls) := by
  have hread := read_effect c calls.reads
  unfold onReadable
  generalize c.readFrom calls.reads = r at hread
  obtain ⟨c₁, peerClosed, ok⟩ := r
  cases ok with
  | false =>
      cases hread with
      | nothing hok => exact .readFailed (hok rfl)
  | true =>
      dsimp only
      split
      · rename_i c₂ hflush
        exact .flushFailed hread hflush
      · rename_i c₂ hflush
        cases peerClosed with
        | false => exact .served hread hflush
        | true =>
            cases hread with
            | ended hgo hend => exact .ended hgo hend hflush

/-- The part of `handleClient` for a writable socket, gone well. -/
def AfterWritable (handle : Handler σ) (event : ReadyEvent) (calls : Calls) (c c' : Client σ) :
    Prop :=
  event.writable = false ∧ c' = c
    ∨ event.writable = true ∧ c.flush handle calls.writes = (c', true)

/-- The part for a readable socket. -/
def AfterReadable (handle : Handler σ) (event : ReadyEvent) (calls : Calls) (c c' : Client σ) :
    Prop :=
  event.readable = false ∧ c' = c ∨ event.readable = true ∧ onReadable handle c calls = (c', true)

/-- What `handleClient` makes of a client, and whether it is to be closed. -/
inductive Turned (handle : Handler σ) (c : Client σ) (event : ReadyEvent) (calls : Calls) :
    Client σ × Bool → Prop
  | writeFailed {c' : Client σ} (hflush : c.flush handle calls.writes = (c', false)) :
      Turned handle c event calls (c', true)
  | readFailed {c₁ c' : Client σ} (hwritable : AfterWritable handle event calls c c₁)
      (hreadable : event.readable = true) (hread : onReadable handle c₁ calls = (c', false)) :
      Turned handle c event calls (c', true)
  | hungUp {c' : Client σ} (hwritable : AfterWritable handle event calls c c')
      (hclosed : event.closed = true ∧ event.readable = false) :
        Turned handle c event calls (c', true)
  | finished {c₁ c' : Client σ} (hwritable : AfterWritable handle event calls c c₁)
      (hreadable : AfterReadable handle event calls c₁ c')
      (hdone : c'.closeAfterFlush = true ∧ c'.unsent = []) : Turned handle c event calls (c', true)
  | kept {c₁ c' : Client σ} (hwritable : AfterWritable handle event calls c c₁)
      (hreadable : AfterReadable handle event calls c₁ c')
      (hmore : ¬ (c'.closeAfterFlush = true ∧ c'.unsent = [])) :
      Turned handle c event calls (c'.updateInterest, false)

/-- The end of `handleClient`. -/
theorem turned_end {event : ReadyEvent} {calls : Calls} {c₁ c' : Client σ}
    (hwritable : AfterWritable handle event calls c c₁)
    (hreadable : AfterReadable handle event calls c₁ c') :
    Turned handle c event calls
      (if event.closed ∧ ¬ event.readable then (c', true)
        else if c'.closeAfterFlush ∧ c'.outSent ≥ c'.outbuf.length then (c', true)
        else (c'.updateInterest, false)) := by
  split
  · rename_i hhup
    obtain ⟨hclosed, hnot⟩ := hhup
    have hnot := Bool.eq_false_iff.mpr hnot
    rcases hreadable with ⟨-, rfl⟩ | ⟨hread, -⟩
    · exact .hungUp hwritable ⟨hclosed, hnot⟩
    · rw [hread] at hnot
      exact absurd hnot (by simp)
  · split
    · rename_i hdone
      exact .finished hwritable hreadable ⟨hdone.1, Client.unsent_eq_nil.mpr hdone.2⟩
    · rename_i hmore
      exact .kept hwritable hreadable fun h => hmore ⟨h.1, Client.unsent_eq_nil.mp h.2⟩

theorem turned (handle : Handler σ) (c : Client σ) (event : ReadyEvent) (calls : Calls) :
    Turned handle c event calls (handleClient handle c event calls) := by
  unfold handleClient
  split
  · rename_i c₁ heq
    split at heq
    · exact .writeFailed heq
    · exact absurd heq (by simp)
  · rename_i c₁ heq
    have hwritable : AfterWritable handle event calls c c₁ := by
      split at heq
      · rename_i hw
        exact .inr ⟨hw, heq⟩
      · rename_i hw
        cases heq
        exact .inl ⟨Bool.eq_false_iff.mpr hw, rfl⟩
    split
    · rename_i c₂ heq₂
      split at heq₂
      · rename_i hr
        exact .readFailed hwritable hr heq₂
      · exact absurd heq₂ (by simp)
    · rename_i c₂ heq₂
      refine turned_end hwritable ?_
      split at heq₂
      · rename_i hr
        exact .inr ⟨hr, heq₂⟩
      · rename_i hr
        cases heq₂
        exact .inl ⟨Bool.eq_false_iff.mpr hr, rfl⟩

/-- A turn leaves alone what a flush, the branch for a readable socket and the poller leave
alone. -/
theorem Turned.keeps {P : Client σ → Prop} {event : ReadyEvent} {calls : Calls}
    {r : Client σ × Bool} (ht : Turned handle c event calls r) (h : P c)
    (hflush : ∀ {c' : Client σ} {ok : Bool}, c.flush handle calls.writes = (c', ok) → P c')
    (hread : ∀ {c₁ c' : Client σ} {ok : Bool}, P c₁ → AfterWritable handle event calls c c₁ →
      event.readable = true → onReadable handle c₁ calls = (c', ok) → P c')
    (hinterest : ∀ {c' : Client σ}, P c' → P c'.updateInterest) : P r.1 := by
  have hfirst : ∀ {c₁ : Client σ}, AfterWritable handle event calls c c₁ → P c₁ := by
    intro c₁ hw
    rcases hw with ⟨-, rfl⟩ | ⟨-, hok⟩
    · exact h
    · exact hflush hok
  have hboth : ∀ {c₁ c₂ : Client σ}, AfterWritable handle event calls c c₁ →
      AfterReadable handle event calls c₁ c₂ → P c₂ := by
    intro c₁ c₂ hw hr
    rcases hr with ⟨-, rfl⟩ | ⟨hr, hok⟩
    · exact hfirst hw
    · exact hread (hfirst hw) hw hr hok
  cases ht with
  | writeFailed hfailed => exact hflush hfailed
  | readFailed hw hr hfailed => exact hread (hfirst hw) hw hr hfailed
  | hungUp hw => exact hfirst hw
  | finished hw hr => exact hboth hw hr
  | kept hw hr => exact hinterest (hboth hw hr)

/-! ## Nobody waits for nothing -/

/-- What every part of `handleClient` leaves behind. -/
structure Calm (c : Client σ) : Prop where
  /-- Room for output will be reported, and reading goes on from there. -/
  paused : c.readingPaused = true → c.unsent ≠ []
  /-- There is nothing to do until more input arrives. -/
  lines : c.readingPaused = false → c.closeAfterFlush = false → cutLine newline c.inbuf = none
  told : c.registered = (c.wantsRead, c.wantsWrite)

theorem Calm.init (session : σ) (stream : Bytes) :
    Calm ({ session := session, incoming := stream } : Client σ) :=
  ⟨by simp, fun _ _ => rfl, rfl⟩

/-- A line or an answer more does not take output away. -/
theorem unsent_push_ne {text : Bytes} (h : c.unsent ≠ []) : (c.push text).unsent ≠ [] := by
  rw [c.unsent_push]
  exact List.append_ne_nil_of_left_ne_nil h _

theorem calm_processed (h : Processed handle c c')
    (hpaused : c.readingPaused = true → c.unsent ≠ [])
    (htold : c.registered = (c.wantsRead, c.wantsWrite)) : Calm c' := by
  induction h with
  | closing hclose => exact ⟨hpaused, fun _ hopen => by rw [hclose] at hopen; simp at hopen, htold⟩
  | waiting hopen hnone hlen => exact ⟨hpaused, fun _ _ => hnone, htold⟩
  | tooLong hopen hnone hlen =>
      exact ⟨fun hp => unsent_push_ne (hpaused hp), fun _ h => absurd h (by simp), htold⟩
  | quit hopen hcut hquit =>
      exact ⟨fun hp => unsent_push_ne (hpaused hp), fun _ h => absurd h (by simp), htold⟩
  | paused hopen hcut hquit hfull =>
      exact ⟨fun _ => List.ne_nil_of_length_pos (Nat.zero_lt_of_lt hfull),
        fun h => absurd h (by simp), htold⟩
  | next hopen hcut hquit hroom hrest ih =>
      exact ih (fun hp => unsent_push_ne (hpaused hp)) htold

theorem calm_updateInterest (h : Calm c) : Calm c.updateInterest := by
  unfold Client.updateInterest
  dsimp only
  split
  · exact h
  · exact ⟨h.paused, h.lines, rfl⟩

/-- What is registered is what is wanted now. -/
theorem updateInterest_wants (c : Client σ) :
    c.updateInterest.wantsRead = !c.updateInterest.readingPaused
      ∧ c.updateInterest.wantsWrite
        = decide (c.updateInterest.outSent < c.updateInterest.outbuf.length) := by
  unfold Client.updateInterest
  dsimp only
  split
  · rename_i hsame
    exact ⟨hsame.2.symm, hsame.1.symm⟩
  · exact ⟨rfl, rfl⟩

/-- A client that has sent everything is not paused, or not any more. -/
theorem calm_afterWrites (ha : AfterWrites handle c c')
    (hlines : c.readingPaused = false → c.closeAfterFlush = false → cutLine newline c.inbuf = none)
    (htold : c.registered = (c.wantsRead, c.wantsWrite)) : Calm c' := by
  cases ha with
  | resumed hsent hpaused hprocessed => exact calm_processed hprocessed (by simp) htold
  | emptied hsent hgo => exact ⟨fun hp => absurd (hgo.symm.trans hp) (by simp), hlines, htold⟩
  | moved hmore => exact ⟨fun _ => hmore, hlines, htold⟩
  | left hmore => exact ⟨fun _ => hmore, hlines, htold⟩

theorem calm_flush (h : Calm c) {calls : List Call} (hok : c.flush handle calls = (c', true)) :
    Calm c' := by
  have hflushed := flush_effect handle c calls
  rw [hok] at hflushed
  cases hflushed with
  | flushed hwrote hafter =>
      obtain ⟨hread, hwrite, hreg⟩ := hwrote.interest
      refine calm_updateInterest (calm_afterWrites hafter (fun hp hc => ?_) ?_)
      · rw [hwrote.inbuf]
        exact h.lines (hwrote.paused ▸ hp) (hwrote.closing ▸ hc)
      · rw [hreg, hread, hwrite, h.told]

/-- After the end of the input only the output is of interest. -/
theorem calm_onReadable (h : Calm c) {calls : Calls}
    (hok : onReadable handle c calls = (c', true)) :
    Calm c' ∨ c'.closeAfterFlush = true ∧ c'.registered = (c'.wantsRead, c'.wantsWrite) := by
  have hflushed : ∀ {c₁ c₂ : Client σ},
      (c₁.processInput handle).flush handle calls.writesAfter = (c₂, true) →
      (c₁.readingPaused = true → c₁.unsent ≠ []) →
      c₁.registered = (c₁.wantsRead, c₁.wantsWrite) → Calm c₂ := by
    intro c₁ c₂ hflush hpaused htold
    exact calm_flush (calm_processed (processed handle c₁) hpaused htold) hflush
  have hinput := input_effect handle c calls
  rw [hok] at hinput
  cases hinput with
  | served hread hflush =>
      refine .inl ?_
      cases hread with
      | nothing => exact hflushed hflush h.paused h.told
      | chunk hgo hbytes => exact hflushed hflush h.paused h.told
  | ended hgo hend hflush => exact .inr ⟨rfl, (hflushed hflush h.paused h.told).told⟩

theorem calm_turned {event : ReadyEvent} {calls : Calls} {r : Client σ × Bool} (h : Calm c)
    (ht : Turned handle c event calls r) (hopen : r.2 = false) :
    Calm r.1 ∧ r.1.wantsRead = !r.1.readingPaused
      ∧ r.1.wantsWrite = decide (r.1.outSent < r.1.outbuf.length) := by
  cases ht with
  | kept hwritable hreadable hmore =>
      rename_i c₁ c'
      have hfirst : Calm c₁ := by
        rcases hwritable with ⟨-, rfl⟩ | ⟨-, hflush⟩
        · exact h
        · exact calm_flush h hflush
      have hsecond : Calm c' := by
        rcases hreadable with ⟨-, rfl⟩ | ⟨-, hread⟩
        · exact hfirst
        · rcases calm_onReadable hfirst hread with hcalm | ⟨hclose, htold⟩
          · exact hcalm
          · exact ⟨fun _ hnil => hmore ⟨hclose, hnil⟩,
              fun _ hno => by rw [hclose] at hno; simp at hno, htold⟩
      exact ⟨calm_updateInterest hsecond, updateInterest_wants c'⟩
  | _ => exact absurd hopen (by simp)

/-! ## Every run -/

/-- A client that is still open is calm, and wants what it should. -/
def OpenMeansCalm (s : State σ) : Prop :=
  s.closed = false → Calm s.client ∧ s.client.wantsRead = !s.client.readingPaused
    ∧ s.client.wantsWrite = decide (s.client.outSent < s.client.outbuf.length)

theorem openMeansCalm_step {s s' : State σ} {a : Act} (h : OpenMeansCalm s)
    (hs : step handle s a = some s') :
    OpenMeansCalm s' := by
  unfold step at hs
  split at hs
  · rename_i hopen
    cases hs
    exact calm_turned (h hopen.1).1 (turned handle s.client a.event a.calls)
  · exact absurd hs (by simp)

theorem openMeansCalm_reachable {session : σ} {stream : Bytes} {s : State σ}
    (h : (system handle session stream).Reachable s) : OpenMeansCalm s := by
  refine h.invariant (I := OpenMeansCalm) ?_ fun _ _ _ hs _ hstep => openMeansCalm_step hs hstep
  rintro s rfl
  exact fun _ => ⟨.init session stream, rfl, rfl⟩

/--
**No client gets stuck**: as long as it is not closed, reading is paused only over
output that has not been sent; the poller has been asked for something, and for just
what the client wants; it waits for room exactly when there is output; and a client
that waits for more input has no line left.
-/
theorem never_stuck {session : σ} {stream : Bytes} {s : State σ}
    (h : (system handle session stream).Reachable s) (hopen : s.closed = false) :
    (s.client.readingPaused = true → s.client.outSent < s.client.outbuf.length)
      ∧ (s.client.wantsRead = true ∨ s.client.wantsWrite = true)
      ∧ s.client.registered = (s.client.wantsRead, s.client.wantsWrite)
      ∧ (s.client.wantsWrite = true ↔ s.client.outSent < s.client.outbuf.length)
      ∧ (s.client.readingPaused = false → s.client.closeAfterFlush = false →
        newline ∉ s.client.inbuf) := by
  obtain ⟨hcalm, hread, hwrite⟩ := openMeansCalm_reachable h hopen
  have hpaused : s.client.readingPaused = true → s.client.outSent < s.client.outbuf.length :=
    fun hp => Nat.not_le.mp fun hle => hcalm.paused hp (Client.unsent_eq_nil.mpr hle)
  refine ⟨hpaused, ?_, hcalm.told, ?_, fun hp hc => cutLine_eq_none.mp (hcalm.lines hp hc)⟩
  · cases hp : s.client.readingPaused with
    | false => exact .inl (by rw [hread, hp]; rfl)
    | true => exact .inr (by rw [hwrite]; exact decide_eq_true (hpaused hp))
  · rw [hwrite, decide_eq_true_iff]

/-- A session that repeats the beginning of what it hears. -/
def echo : Handler Unit := fun _ line =>
  { session := (), text := line.take 8 ++ ascii "\n", quit := decide (line = ascii "QUIT") }

/-- Three lines and the beginning of a fourth arrive at once; one byte of the replies goes out. -/
theorem never_stuck_halfSent :
    ∃ s, (system echo () (ascii "a\nbc\r\n\nde")).Reachable s ∧ s.client.written = ascii "a"
      ∧ s.client.wantsWrite = true ∧ s.client.registered = (true, true)
      ∧ newline ∉ s.client.inbuf := by
  obtain ⟨s, hreach, hopen, hwritten, hpaused, hclosing, hsent⟩ := System.exists_reachableBy
    (p := fun s => s.closed = false ∧ s.client.written = ascii "a"
      ∧ s.client.readingPaused = false ∧ s.client.closeAfterFlush = false
      ∧ s.client.outSent < s.client.outbuf.length ∧ s.client.wantsRead = true)
    (show (system echo () (ascii "a\nbc\r\n\nde")).Reachable _ from .init rfl)
    [{ event := { readable := true }
       calls := { reads := [.moved 100], writesAfter := [.moved 0, .wouldBlock] } }]
    (by decide +kernel) (by decide +kernel)
  obtain ⟨-, -, hregistered, hwants, hlines⟩ := never_stuck hreach hopen
  have hwrite := hwants.mpr hsent.1
  exact ⟨s, hreach, hwritten, hwrite, by rw [hregistered, hwrite, hsent.2], hlines hpaused hclosing⟩

end KvStore.Net.EventLoop
