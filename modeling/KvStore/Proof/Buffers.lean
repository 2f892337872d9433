import KvStore.Proof.Clients

/-!
# What a client can make the server keep

A client has two buffers at the server, and it decides how fast either of them is
emptied: the replies by reading them, the input by ending its lines.

For the output there is a limit. Lines are handled only by a client that is not
paused, one that is over the limit is paused at once, and what wakes it up is an empty
buffer. So a backlog is never more than one reply over the limit, and the check that
drops a client with a large backlog never applies to a client with replies of a
reasonable size.

For the input there is a limit as long as the input is looked at. A client that is
about to be closed is read from, if its last replies cannot be sent yet, and then
nobody looks.
-/

namespace KvStore.Net.EventLoop

open Lib
open Repl (ascii newline)

variable {σ : Type} {handle : Handler σ} {c c' : Client σ}

/-! ## Flushing a client that is not paused -/

/-- Bytes may have gone out, and that is all. -/
structure OnlyBytesSent (c c' : Client σ) : Prop where
  bytes : c'.written ++ c'.unsent = c.written ++ c.unsent
  session : c'.session = c.session
  inbuf : c'.inbuf = c.inbuf
  incoming : c'.incoming = c.incoming
  closing : c'.closeAfterFlush = c.closeAfterFlush
  paused : c'.readingPaused = c.readingPaused

theorem onlyBytesSent_updateInterest (c : Client σ) : OnlyBytesSent c c.updateInterest := by
  unfold Client.updateInterest
  dsimp only
  split
  · exact ⟨rfl, rfl, rfl, rfl, rfl, rfl⟩
  · exact ⟨rfl, rfl, rfl, rfl, rfl, rfl⟩

theorem OnlyBytesSent.trans {c'' : Client σ} (h : OnlyBytesSent c c') (h' : OnlyBytesSent c' c'') :
    OnlyBytesSent c c'' :=
  ⟨h'.bytes.trans h.bytes, h'.session.trans h.session, h'.inbuf.trans h.inbuf,
    h'.incoming.trans h.incoming, h'.closing.trans h.closing, h'.paused.trans h.paused⟩

theorem Wrote.onlyBytesSent (h : Wrote c c') : OnlyBytesSent c c' :=
  ⟨h.bytes, h.session, h.inbuf, h.incoming, h.closing, h.paused⟩

/-- Behind the loop a client is woken up that has sent everything, or nothing has happened. -/
theorem onlyBytesSent_or_resumed (ha : AfterWrites handle c c') :
    OnlyBytesSent c c' ∨ c.unsent = [] ∧ c.readingPaused = true ∧ Processed handle
      { c with
        outbuf := [], outSent := 0, sent_le := Nat.zero_le _, readingPaused := false } c' := by
  cases ha with
  | resumed hsent hpaused hprocessed => exact .inr ⟨hsent, hpaused, hprocessed⟩
  | emptied hsent =>
      refine .inl ⟨?_, rfl, rfl, rfl, rfl, rfl⟩
      rw [hsent]
      rfl
  | moved => exact .inl ⟨rfl, rfl, rfl, rfl, rfl, rfl⟩
  | left => exact .inl ⟨rfl, rfl, rfl, rfl, rfl, rfl⟩

/-- A flush sends bytes, and wakes up a client that was paused. -/
theorem flush_keeps {P : Client σ → Prop}
    (hsame : ∀ {c c' : Client σ}, P c → OnlyBytesSent c c' → P c')
    (hresumed : ∀ {c₁ c₂ : Client σ}, P c₁ → c.readingPaused = true → c₁.unsent = [] →
      Processed handle
        { c₁ with
          outbuf := [], outSent := 0, sent_le := Nat.zero_le _, readingPaused := false } c₂ →
      P c₂)
    (h : P c) {calls : List Call} {ok : Bool} (hflush : c.flush handle calls = (c', ok)) :
    P c' := by
  have hafter : ∀ {c₁ c₂ : Client σ}, Wrote c c₁ → AfterWrites handle c₁ c₂ → P c₂ := by
    intro c₁ c₂ hwrote ha
    have h₁ := hsame h hwrote.onlyBytesSent
    rcases onlyBytesSent_or_resumed ha with hu | ⟨hsent, hpaused, hprocessed⟩
    · exact hsame h₁ hu
    · exact hresumed h₁ (hwrote.paused ▸ hpaused) hsent hprocessed
  have hflushed := flush_effect handle c calls
  rw [hflush] at hflushed
  cases hflushed with
  | failed hwrote => exact hsame h hwrote.onlyBytesSent
  | dropped hwrote ha => exact hsame (hafter hwrote ha) ⟨rfl, rfl, rfl, rfl, rfl, rfl⟩
  | @flushed c₁ c₂ hwrote ha => exact hsame (hafter hwrote ha) (onlyBytesSent_updateInterest c₂)

/-- Nobody is woken up who is not asleep. -/
theorem onlyBytesSent_flush (hgo : c.readingPaused = false) {calls : List Call} {ok : Bool}
    (hflush : c.flush handle calls = (c', ok)) : OnlyBytesSent c c' := by
  refine flush_keeps (P := OnlyBytesSent c)
    (fun h hu => h.trans hu) ?_ ⟨rfl, rfl, rfl, rfl, rfl, rfl⟩
    hflush
  intro c₁ c₂ _ hpaused _ _
  exact absurd (hgo.symm.trans hpaused) (by simp)

theorem onlyBytesSent_writable {event : ReadyEvent} {calls : Calls} (hgo : c.readingPaused = false)
    (hw : AfterWritable handle event calls c c') : OnlyBytesSent c c' := by
  rcases hw with ⟨-, rfl⟩ | ⟨-, hflush⟩
  · exact ⟨rfl, rfl, rfl, rfl, rfl, rfl⟩
  · exact onlyBytesSent_flush hgo hflush

/-- The poller reports input only for a client that is not paused. -/
theorem reading_of_readable {s : State σ} (h : OpenMeansCalm s) (hopen : s.closed = false) {a : Act}
    (hrespects : Respects a.event s.client.registered) (hreadable : a.event.readable = true) :
    s.client.readingPaused = false := by
  obtain ⟨hcalm, hread, -⟩ := h hopen
  have hwants := hrespects.1 hreadable
  rw [hcalm.told, hread] at hwants
  simpa using hwants

/-! ## Output -/

/-- The limit of the output, and the limit of one that is not paused. -/
structure Backlog (limit : Nat) (c : Client σ) : Prop where
  all : c.unsent.length ≤ kPauseReadingAboveBytes + limit
  room : c.readingPaused = false → c.closeAfterFlush = false →
    c.unsent.length ≤ kPauseReadingAboveBytes

theorem Backlog.wrote {limit : Nat} (h : Backlog limit c) (hw : Wrote c c') : Backlog limit c' :=
  ⟨hw.backlog.trans h.all,
    fun hp hc => hw.backlog.trans (h.room (hw.paused ▸ hp) (hw.closing ▸ hc))⟩

theorem backlog_updateInterest {limit : Nat} (h : Backlog limit c) :
    Backlog limit c.updateInterest := by
  unfold Client.updateInterest
  dsimp only
  split
  · exact h
  · exact ⟨h.all, h.room⟩

theorem evicted_processed (hp : Processed handle c c') :
    c'.evictedForBacklog = c.evictedForBacklog := by
  induction hp with
  | closing => rfl
  | waiting => rfl
  | tooLong => rfl
  | quit => rfl
  | paused => rfl
  | next _ _ _ _ _ ih => exact ih

theorem evicted_afterWrites (ha : AfterWrites handle c c') :
    c'.evictedForBacklog = c.evictedForBacklog := by
  cases ha with
  | resumed _ _ hprocessed =>
      have hsame := evicted_processed hprocessed
      exact hsame
  | emptied => rfl
  | moved => rfl
  | left => rfl

theorem evicted_updateInterest (c : Client σ) :
    c.updateInterest.evictedForBacklog = c.evictedForBacklog := by
  unfold Client.updateInterest
  dsimp only
  split
  · rfl
  · rfl

section Backlog

variable {limit : Nat} (hreply : ∀ s line, (handle s line).text.length ≤ limit)
  (hrefusal : (ascii "-ERR line too long\n").length ≤ limit)

include hreply hrefusal

/-- **One reply over the limit, and no more.** -/
theorem backlog_processed (hp : Processed handle c c')
    (hall : c.unsent.length ≤ kPauseReadingAboveBytes + limit)
    (hroom : c.closeAfterFlush = false → c.unsent.length ≤ kPauseReadingAboveBytes) :
    Backlog limit c' := by
  have hone : ∀ {c : Client σ} (line rest : Bytes), c.unsent.length ≤ kPauseReadingAboveBytes →
      (c.handled (handle c.session (chomp line)) rest).unsent.length
        ≤ kPauseReadingAboveBytes + limit := by
    intro c line rest hle
    have htext := hreply c.session (chomp line)
    rw [c.unsent_handled, List.length_append]
    omega
  induction hp with
  | closing hclose => exact ⟨hall, fun _ hopen => hroom hopen⟩
  | waiting hopen => exact ⟨hall, fun _ hopen => hroom hopen⟩
  | @tooLong c hopen =>
      refine ⟨?_, fun _ hno => absurd hno (by simp)⟩
      have hle := hroom hopen
      show (c.push (ascii "-ERR line too long\n")).unsent.length ≤ _
      rw [c.unsent_push, List.length_append]
      omega
  | @quit c line rest hopen hcut hquit =>
      exact ⟨hone line rest (hroom hopen), fun _ hno => absurd hno (by simp)⟩
  | @paused c line rest hopen hcut hquit hfull =>
      exact ⟨hone line rest (hroom hopen), fun hno => absurd hno (by simp)⟩
  -- below the limit again, so the next reply may be added
  | @next c c' line rest hopen hcut hquit hle hrest ih =>
      exact ih (hone line rest (hroom hopen)) fun _ => hle

theorem backlog_afterWrites (ha : AfterWrites handle c c') (h : Backlog limit c) :
    Backlog limit c' := by
  cases ha with
  | resumed hsent hpaused hprocessed =>
      exact backlog_processed hreply hrefusal hprocessed (Nat.zero_le _) fun _ => Nat.zero_le _
  | emptied => exact ⟨Nat.zero_le _, fun _ _ => Nat.zero_le _⟩
  | moved => exact ⟨h.all, h.room⟩
  | left => exact h

/-- If one reply fits between pausing and dropping, what makes a flush fail is an error. -/
theorem backlog_flush (h : Backlog limit c) {calls : List Call} {ok : Bool}
    (hflush : c.flush handle calls = (c', ok)) :
    Backlog limit c' ∧ (kPauseReadingAboveBytes + limit ≤ kMaxOutputBytes →
      (ok = false → .failed ∈ calls) ∧ c'.evictedForBacklog = c.evictedForBacklog) := by
  have hflushed := flush_effect handle c calls
  rw [hflush] at hflushed
  cases hflushed with
  | failed hwrote hfailed => exact ⟨h.wrote hwrote, fun _ => ⟨fun _ => hfailed, hwrote.evicted⟩⟩
  | dropped hwrote hafter hmuch =>
      have hbacklog := backlog_afterWrites hreply hrefusal hafter (h.wrote hwrote)
      refine ⟨⟨hbacklog.all, hbacklog.room⟩, fun hfits => ?_⟩
      exact absurd (hbacklog.all.trans hfits) (Nat.not_le.mpr hmuch)
  | @flushed c₁ c₂ hwrote hafter =>
      have hbacklog := backlog_afterWrites hreply hrefusal hafter (h.wrote hwrote)
      refine ⟨backlog_updateInterest hbacklog, fun _ => ⟨by simp, ?_⟩⟩
      rw [evicted_updateInterest, evicted_afterWrites hafter, hwrote.evicted]

/-- What was read is added to the input of a client that is not paused, and handled. -/
theorem backlog_read (h : Backlog limit c) (hgo : c.readingPaused = false) {calls : List Call}
    {c₁ : Client σ} {peerClosed ok : Bool} (hr : Read c calls (c₁, peerClosed, ok)) :
    Backlog limit (c₁.processInput handle)
      ∧ (c₁.processInput handle).evictedForBacklog = c.evictedForBacklog := by
  refine ⟨backlog_processed hreply hrefusal (processed handle c₁) ?_ fun hopen => ?_, ?_⟩
  · cases hr <;> exact h.all
  · cases hr <;> exact h.room hgo hopen
  · rw [evicted_processed (processed handle c₁)]
    cases hr <;> rfl

theorem backlog_onReadable (h : Backlog limit c) (hgo : c.readingPaused = false) {calls : Calls}
    {ok : Bool} (hread : onReadable handle c calls = (c', ok)) :
    Backlog limit c' ∧ (kPauseReadingAboveBytes + limit ≤ kMaxOutputBytes →
      (ok = false → .failed ∈ calls.reads ∨ .failed ∈ calls.writesAfter)
        ∧ c'.evictedForBacklog = c.evictedForBacklog) := by
  have hinput := input_effect handle c calls
  rw [hread] at hinput
  cases hinput with
  | readFailed hfailed => exact ⟨h, fun _ => ⟨fun _ => .inl hfailed, rfl⟩⟩
  | flushFailed hr hflush =>
      obtain ⟨hserved, hsame⟩ := backlog_read hreply hrefusal h hgo hr
      obtain ⟨hbacklog, herror⟩ := backlog_flush hreply hrefusal hserved hflush
      refine ⟨hbacklog, fun hfits => ⟨fun _ => .inr ((herror hfits).1 rfl), ?_⟩⟩
      exact (herror hfits).2.trans hsame
  | served hr hflush =>
      obtain ⟨hserved, hsame⟩ := backlog_read hreply hrefusal h hgo hr
      obtain ⟨hbacklog, herror⟩ := backlog_flush hreply hrefusal hserved hflush
      exact ⟨hbacklog, fun hfits => ⟨by simp, (herror hfits).2.trans hsame⟩⟩
  | ended hgo hend hflush =>
      have hr : Read c calls.reads (c, true, true) := .ended hgo hend
      obtain ⟨hserved, hsame⟩ := backlog_read hreply hrefusal h hgo hr
      obtain ⟨hbacklog, herror⟩ := backlog_flush hreply hrefusal hserved hflush
      exact ⟨⟨hbacklog.all, fun hno => absurd hno (by simp)⟩,
        fun hfits => ⟨by simp, (herror hfits).2.trans hsame⟩⟩

theorem backlog_turned {event : ReadyEvent} {calls : Calls} {r : Client σ × Bool}
    (h : Backlog limit c) (hgo : event.readable = true → c.readingPaused = false)
    (ht : Turned handle c event calls r) :
    Backlog limit r.1 ∧ (kPauseReadingAboveBytes + limit ≤ kMaxOutputBytes →
      r.1.evictedForBacklog = c.evictedForBacklog) := by
  refine ht.keeps
    (P := fun c' => Backlog limit c' ∧ (kPauseReadingAboveBytes + limit ≤ kMaxOutputBytes →
    c'.evictedForBacklog = c.evictedForBacklog)) ⟨h, fun _ => rfl⟩ ?_ ?_ ?_
  · intro c' ok hflush
    obtain ⟨hbacklog, herror⟩ := backlog_flush hreply hrefusal h hflush
    exact ⟨hbacklog, fun hfits => (herror hfits).2⟩
  · rintro c₁ c' ok ⟨hbacklog, hsame⟩ hw hr hread
    have hgo₁ := (onlyBytesSent_writable (hgo hr) hw).paused.trans (hgo hr)
    obtain ⟨hnext, herror⟩ := backlog_onReadable hreply hrefusal hbacklog hgo₁ hread
    exact ⟨hnext, fun hfits => (herror hfits).2.trans (hsame hfits)⟩
  · rintro c' ⟨hbacklog, hsame⟩
    refine ⟨backlog_updateInterest hbacklog, fun hfits => ?_⟩
    rw [evicted_updateInterest]
    exact hsame hfits

theorem backlog_reachable {session : σ} {stream : Bytes} {s : State σ}
    (h : (system handle session stream).Reachable s) :
    OpenMeansCalm s ∧ Backlog limit s.client
      ∧ (kPauseReadingAboveBytes + limit ≤ kMaxOutputBytes → s.client.evictedForBacklog = 0) := by
  refine h.invariant (I := fun s => OpenMeansCalm s ∧ Backlog limit s.client
    ∧ (kPauseReadingAboveBytes + limit ≤ kMaxOutputBytes → s.client.evictedForBacklog = 0)) ?_ ?_
  · rintro s rfl
    refine ⟨fun _ => ⟨.init session stream, rfl, rfl⟩, ?_, fun _ => rfl⟩
    exact ⟨Nat.zero_le _, fun _ _ => Nat.zero_le _⟩
  · rintro s a s' ⟨hattended, hbacklog, hcount⟩ - hs
    refine ⟨openMeansCalm_step hattended hs, ?_⟩
    have hs : step handle s a = some s' := hs
    unfold step at hs
    split at hs
    · rename_i hguard
      cases hs
      obtain ⟨hnext, hsame⟩ := backlog_turned hreply hrefusal hbacklog
        (reading_of_readable hattended hguard.1 hguard.2)
        (turned handle s.client a.event a.calls)
      exact ⟨hnext, fun hfits => (hsame hfits).trans (hcount hfits)⟩
    · exact absurd hs (by simp)

end Backlog

/--
**Backpressure keeps the backlog small.** If no reply is longer than `R`, the output
that has not been sent is at most one reply over the limit at which reading is paused,
also between the handling of input and the flush behind it. If that is not more than
the limit at which a client is dropped, none ever is, however slowly it reads.
-/
theorem backlog_bounded {R : Nat} (hreply : ∀ s line, (handle s line).text.length ≤ R) (session : σ)
    (stream : Bytes) (s : State σ) (h : (system handle session stream).Reachable s) :
    s.client.outbuf.length - s.client.outSent ≤ kPauseReadingAboveBytes + max R 19
      ∧ s.client.outSent ≤ s.client.outbuf.length
      ∧ (s.closed = false → s.client.wantsRead = true → ∀ calls,
        (((s.client.readFrom calls).1.processInput handle).unsent).length
          ≤ kPauseReadingAboveBytes + max R 19)
      ∧ (R + kPauseReadingAboveBytes ≤ kMaxOutputBytes → s.client.evictedForBacklog = 0) := by
  have hlimit : ∀ s line, (handle s line).text.length ≤ max R 19 :=
    fun s line => (hreply s line).trans (Nat.le_max_left _ _)
  have hrefusal : (ascii "-ERR line too long\n").length ≤ max R 19 := by
    rw [show (ascii "-ERR line too long\n").length = 19 by decide]
    exact Nat.le_max_right _ _
  obtain ⟨hattended, hbacklog, hcount⟩ := backlog_reachable hlimit hrefusal h
  refine ⟨?_, s.client.sent_le, fun hopen hwants calls => ?_, fun hfits => hcount ?_⟩
  · rw [← Client.length_unsent]
    exact hbacklog.all
  · have hgo : s.client.readingPaused = false := by
      rw [(hattended hopen).2.1] at hwants
      simpa using hwants
    exact (backlog_read hlimit hrefusal hbacklog hgo (read_effect s.client calls)).1.all
  · rw [kMaxOutputBytes, kPauseReadingAboveBytes] at hfits ⊢
    omega

/-- A client that has sent three lines at once and takes one byte of the replies. -/
theorem backlog_bounded_echo :
    ∃ s, (system echo () (ascii "a\nbc\r\n\nde")).Reachable s ∧ s.client.written = ascii "a"
      ∧ s.client.outbuf.length - s.client.outSent ≤ kPauseReadingAboveBytes + 19
      ∧ s.client.evictedForBacklog = 0 := by
  obtain ⟨s, hreach, hwritten⟩ := System.exists_reachableBy
    (p := fun s => s.client.written = ascii "a")
    (show (system echo () (ascii "a\nbc\r\n\nde")).Reachable _ from .init rfl)
    [{ event := { readable := true }
       calls := { reads := [.moved 100], writesAfter := [.moved 0, .wouldBlock] } }]
    (by decide +kernel) (by decide +kernel)
  have hreply : ∀ s line, (echo s line).text.length ≤ 9 := by
    intro s line
    have hle : (line.take 8).length ≤ 8 := List.length_take_le ..
    have hone : (ascii "\n").length = 1 := by decide
    show (line.take 8 ++ ascii "\n").length ≤ _
    rw [List.length_append, hone]
    omega
  obtain ⟨hle, -, -, hcount⟩ := backlog_bounded hreply () _ s hreach
  exact ⟨s, hreach, hwritten, hle, hcount (by decide)⟩

/-! ## Input -/

/--
The limit of the input, and the limit of one that is looked at. Of a client that is about
to be closed it holds if `always` does.
-/
structure Intake (always : Prop) (c : Client σ) : Prop where
  all : always ∨ c.closeAfterFlush = false → c.inbuf.length ≤ kMaxLineLength + kReadChunk
  room : c.readingPaused = false → c.closeAfterFlush = false → c.inbuf.length ≤ kMaxLineLength

section Intake

variable {always : Prop}

/-- Handling lines takes them off the input. -/
theorem intake_processed (hp : Processed handle c c')
    (hall : always ∨ c.closeAfterFlush = false → c.inbuf.length ≤ kMaxLineLength + kReadChunk) :
    Intake always c' := by
  have hshorter : ∀ {c : Client σ} {line rest : Bytes}, c.closeAfterFlush = false →
      cutLine newline c.inbuf = some (line, rest) →
      (always ∨ c.closeAfterFlush = false → c.inbuf.length ≤ kMaxLineLength + kReadChunk) →
      rest.length ≤ kMaxLineLength + kReadChunk := by
    intro c line rest hopen hcut hall
    have hlen := length_of_cutLine hcut
    have hle := hall (.inr hopen)
    omega
  induction hp with
  | closing hclose => exact ⟨hall, fun _ hno => absurd (hclose.symm.trans hno) (by simp)⟩
  | waiting hopen hnone hlen => exact ⟨hall, fun _ _ => hlen⟩
  | tooLong hopen => exact ⟨fun _ => hall (.inr hopen), fun _ hno => absurd hno (by simp)⟩
  | quit hopen hcut =>
      exact ⟨fun _ => hshorter hopen hcut hall, fun _ hno => absurd hno (by simp)⟩
  | paused hopen hcut =>
      exact ⟨fun _ => hshorter hopen hcut hall, fun hno => absurd hno (by simp)⟩
  | next hopen hcut _ _ _ ih => exact ih fun _ => hshorter hopen hcut hall

theorem Intake.onlyBytesSent (h : Intake always c) (hu : OnlyBytesSent c c') :
    Intake always c' := by
  refine ⟨?_, ?_⟩
  · rw [hu.closing, hu.inbuf]
    exact h.all
  · rw [hu.paused, hu.closing, hu.inbuf]
    exact h.room

theorem intake_flush (h : Intake always c) {calls : List Call} {ok : Bool}
    (hflush : c.flush handle calls = (c', ok)) : Intake always c' :=
  flush_keeps (P := Intake always) Intake.onlyBytesSent
    (fun h₁ _ _ hprocessed => intake_processed hprocessed h₁.all) h hflush

/-- One chunk is added to what is at most one line. -/
theorem intake_read (h : Intake always c) (hgo : c.readingPaused = false)
    (hopen : always → c.closeAfterFlush = false) {calls : List Call} {c₁ : Client σ}
    {peerClosed ok : Bool} (hr : Read c calls (c₁, peerClosed, ok)) :
    Intake always (c₁.processInput handle) := by
  refine intake_processed (processed handle c₁) ?_
  cases hr with
  | nothing => exact h.all
  | ended => exact h.all
  | chunk _ hbytes hlen =>
      intro hwhen
      have hroom := h.room hgo (hwhen.elim hopen id)
      rw [List.length_append]
      omega

theorem intake_onReadable (h : Intake always c) (hgo : c.readingPaused = false)
    (hopen : always → c.closeAfterFlush = false) {calls : Calls} {ok : Bool}
    (hread : onReadable handle c calls = (c', ok)) : Intake always c' := by
  have hinput := input_effect handle c calls
  rw [hread] at hinput
  cases hinput with
  | readFailed => exact h
  | flushFailed hr hflush => exact intake_flush (intake_read h hgo hopen hr) hflush
  | served hr hflush => exact intake_flush (intake_read h hgo hopen hr) hflush
  | ended hgo hend hflush =>
      have hr : Read c calls.reads (c, true, true) := .ended hgo hend
      have hnext := intake_flush (intake_read h hgo hopen hr) hflush
      exact ⟨fun hwhen => hnext.all (.inl (hwhen.resolve_right (by simp))),
        fun hno => absurd hno (by simp)⟩

theorem intake_turned {event : ReadyEvent} {calls : Calls} {r : Client σ × Bool}
    (h : Intake always c) (hgo : event.readable = true → c.readingPaused = false)
    (hopen : event.readable = true → always → c.closeAfterFlush = false)
    (ht : Turned handle c event calls r) : Intake always r.1 := by
  refine ht.keeps (P := Intake always) h (intake_flush h) ?_ ?_
  · intro c₁ c' ok h₁ hw hr hread
    have hsame := onlyBytesSent_writable (hgo hr) hw
    exact intake_onReadable h₁ (hsame.paused.trans (hgo hr))
      (fun hon => hsame.closing.trans (hopen hr hon)) hread
  · intro c' h'
    exact h'.onlyBytesSent (onlyBytesSent_updateInterest c')

theorem intake_reachable {session : σ} {stream : Bytes} {ok : State σ → Act → Prop}
    (hok : ∀ s a, ok s a → always → a.event.readable = true → s.client.closeAfterFlush = false)
    {s : State σ} (h : (system handle session stream).ReachableBy ok s) :
    OpenMeansCalm s ∧ Intake always s.client := by
  refine h.invariant (I := fun s => OpenMeansCalm s ∧ Intake always s.client) ?_ ?_
  · rintro s rfl
    refine ⟨fun _ => ⟨.init session stream, rfl, rfl⟩, ?_⟩
    exact ⟨fun _ => Nat.zero_le _, fun _ _ => Nat.zero_le _⟩
  · rintro s a s' ⟨hattended, hintake⟩ hmeets hs
    refine ⟨openMeansCalm_step hattended hs, ?_⟩
    have hs : step handle s a = some s' := hs
    unfold step at hs
    split at hs
    · rename_i hguard
      cases hs
      exact intake_turned hintake (reading_of_readable hattended hguard.1 hguard.2)
        (fun hr hon => hok s a hmeets hon hr) (turned handle s.client a.event a.calls)
    · exact absurd hs (by simp)

end Intake

/-- No input is taken from a client that is about to be closed. -/
def LeftAlone (s : State σ) (a : Act) : Prop :=
  s.client.closeAfterFlush = true → a.event.readable = false

/--
**The input is bounded while it is looked at**: in every run in which no client is read
from that is about to be closed, the input buffer never has more than a line of the
greatest length and one chunk.
-/
theorem input_bounded (session : σ) (stream : Bytes) (s : State σ)
    (h : (system handle session stream).ReachableBy LeftAlone s) :
    s.client.inbuf.length ≤ kMaxLineLength + kReadChunk := by
  have hok : ∀ (s : State σ) (a : Act), LeftAlone s a → True → a.event.readable = true →
      s.client.closeAfterFlush = false := by
    intro s a halone _ hreadable
    rw [← Bool.not_eq_true]
    intro hclosing
    rw [halone hclosing] at hreadable
    exact absurd hreadable (by simp)
  exact (intake_reachable hok h).2.all (.inl trivial)

instance (s : State σ) (a : Act) : Decidable (LeftAlone s a) :=
  inferInstanceAs (Decidable (_ → _))

/-- A client that quits and has its last reply sent in two pieces. -/
theorem input_bounded_quit :
    ∃ s, (system echo () (ascii "a\nQUIT\nb\n")).ReachableBy LeftAlone s
      ∧ s.client.closeAfterFlush = true ∧ s.client.inbuf.length ≤ kMaxLineLength + kReadChunk := by
  obtain ⟨s, hreach, hclosing⟩ := System.exists_reachableBy
    (p := fun s => s.client.closeAfterFlush = true)
    (show (system echo () (ascii "a\nQUIT\nb\n")).ReachableBy LeftAlone _ from .init rfl)
    [{ event := { readable := true }
       calls := { reads := [.moved 7], writesAfter := [.moved 0, .wouldBlock] } },
      { event := { writable := true }, calls := { writes := [.moved 1, .wouldBlock] } }]
    (by decide +kernel) (by decide +kernel)
  exact ⟨s, hreach, hclosing, input_bounded () _ s hreach⟩

/-! ## Nobody looks -/

/-- A client that has quit and does not take the reply. -/
def quitter (inbuf incoming : Bytes) (shortWrites : Nat) : Client Unit :=
  { session := ()
    inbuf := inbuf
    outbuf := ascii "QUIT\n"
    wantsWrite := true
    closeAfterFlush := true
    registered := (true, true)
    incoming := incoming
    commands := 1
    shortWrites := shortWrites }

/-- More input, and still no room for output. -/
def sendsOn : Act :=
  { event := { readable := true }
    calls := { reads := [.moved kReadChunk], writesAfter := [.wouldBlock] } }

/-- The chunk is kept, and nothing else happens. -/
theorem step_sendsOn (inbuf rest : Bytes) {bytes : Bytes} (hlen : bytes.length = kReadChunk)
    (n : Nat) :
    step echo { client := quitter inbuf (bytes ++ rest) n } sendsOn
      = some { client := quitter (inbuf ++ bytes) rest (n + 1) } := by
  have htake : (bytes ++ rest).take (min (kReadChunk + 1) kReadChunk) = bytes := by
    rw [Nat.min_eq_right (Nat.le_succ _), ← hlen, List.take_left]
  have hne : bytes ≠ [] := by
    intro hnil
    rw [hnil, kReadChunk] at hlen
    exact absurd hlen (by decide)
  have hread : (quitter inbuf (bytes ++ rest) n).readFrom [.moved kReadChunk]
      = (quitter (inbuf ++ bytes) rest n, false, true) := by
    show (if (bytes ++ rest).take (min (kReadChunk + 1) kReadChunk) = [] then _
      else (({ quitter inbuf (bytes ++ rest) n with
          inbuf := inbuf ++ (bytes ++ rest).take (min (kReadChunk + 1) kReadChunk)
          incoming := (bytes ++ rest).drop
            ((bytes ++ rest).take (min (kReadChunk + 1) kReadChunk)).length } : Client Unit),
        false, true)) = _
    rw [htake, if_neg hne, List.drop_left]
    rfl
  -- lines are not looked at any more, and the flush finds the socket full
  have hlines : (quitter (inbuf ++ bytes) rest n).processInput echo
      = quitter (inbuf ++ bytes) rest n := rfl
  have hflush : (quitter (inbuf ++ bytes) rest n).flush echo [.wouldBlock]
      = (quitter (inbuf ++ bytes) rest (n + 1), true) := rfl
  have hreadable : onReadable echo (quitter inbuf (bytes ++ rest) n) sendsOn.calls
      = (quitter (inbuf ++ bytes) rest (n + 1), true) := by
    unfold onReadable sendsOn
    dsimp only
    rw [hread]
    dsimp only
    rw [hlines, hflush]
    rfl
  unfold step
  rw [if_pos ⟨rfl, fun _ => rfl, fun _ => rfl⟩]
  unfold handleClient
  dsimp only
  rw [if_neg (by decide)]
  dsimp only
  rw [if_pos (by decide), hreadable]
  rfl

theorem reachable_sendsOn {stream : Bytes} (k : Nat) {inbuf : Bytes} {n : Nat}
    (h : (system echo () stream).Reachable
      { client := quitter inbuf (List.replicate (k * kReadChunk) 120) n }) :
    (system echo () stream).Reachable
      { client := quitter (inbuf ++ List.replicate (k * kReadChunk) 120) [] (n + k) } := by
  induction k generalizing inbuf n with
  | zero =>
      rw [Nat.zero_mul, List.replicate_zero] at h
      rw [Nat.zero_mul, List.replicate_zero, List.append_nil]
      exact h
  | succ k ih =>
      rw [Nat.succ_mul, Nat.add_comm, ← List.replicate_append_replicate] at h
      rw [Nat.succ_mul, Nat.add_comm (k * kReadChunk), ← List.replicate_append_replicate,
        ← List.append_assoc, ← Nat.add_assoc, Nat.add_right_comm]
      have hlen : (List.replicate kReadChunk (120 : UInt8)).length = kReadChunk :=
        List.length_replicate
      have hstep := step_sendsOn inbuf (List.replicate (k * kReadChunk) 120) hlen n
      exact ih (h.tail (a := sendsOn) trivial hstep)

/-- A client quits without reading the reply, and what it sends from then on is kept: six chunks
here, which is more than the limit, and as many as it likes. -/
theorem input_overflows :
    ∃ s, (system echo () (ascii "QUIT\n" ++ List.replicate (6 * kReadChunk) 120)).Reachable s
      ∧ kMaxLineLength + kReadChunk < s.client.inbuf.length := by
  have hquit : (system echo () (ascii "QUIT\n" ++ List.replicate (6 * kReadChunk) 120)).Reachable
      { client := quitter [] (List.replicate (6 * kReadChunk) 120) 1 } :=
    .tail (a := { event := { readable := true }
                  calls := { reads := [.moved 4], writesAfter := [.wouldBlock] } })
      (.init rfl) trivial rfl
  refine ⟨_, reachable_sendsOn 6 hquit, ?_⟩
  show _ < (List.replicate (6 * kReadChunk) 120).length
  rw [List.length_replicate]
  decide

end KvStore.Net.EventLoop
