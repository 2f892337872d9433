import KvStore.Net.Server
import KvStore.Proof.Buffers
import KvStore.Proof.Dialogue
import KvStore.Proof.Loop

/-!
# The loop serves sessions

A turn of a client may handle many lines, and it handles them one after the other; turns
follow each other. So what the loop does to the store is what some sequence of lines does,
each of them handled by the session of its client (`KvStore.Proof.Dialogue`). What a client
has been sent, or is going to be sent, are the replies to its own lines, and its lines are
what it has sent, cut at the newlines.
-/

namespace KvStore.Net.EventLoop

open Lib
open Repl (ascii newline)

variable {σ : Type} {handle : Handler σ} {c c' : Client σ} {lines : List Bytes} {refused : Bool}

/-! ## What a turn comes to -/

/-- A session behind a list of lines. -/
def behind (handle : Handler σ) (s : σ) (lines : List Bytes) : σ :=
  lines.foldl (fun s line => (handle s (chomp line)).session) s

/-- What it says to them. -/
def sayings (handle : Handler σ) : σ → List Bytes → Bytes
  | _, [] => []
  | s, line :: lines =>
      (handle s (chomp line)).text ++ sayings handle (handle s (chomp line)).session lines

theorem sayings_append (s : σ) (front back : List Bytes) :
    sayings handle s (front ++ back)
      = sayings handle s front ++ sayings handle (behind handle s front) back := by
  induction front generalizing s with
  | nil => rfl
  | cons line front ih => rw [List.cons_append, sayings, sayings, ih, List.append_assoc]; rfl

/-- The last words to a client that sends no newline. -/
def refusal (refused : Bool) : Bytes := if refused then ascii "-ERR line too long\n" else []

/-- A client has handled some lines of its input, and has said no to what is behind them. -/
structure LinesHandled (handle : Handler σ) (c c' : Client σ) (lines : List Bytes)
    (refused : Bool) :
    Prop where
  session : c'.session = behind handle c.session lines
  said : c'.written ++ c'.unsent
    = c.written ++ c.unsent ++ sayings handle c.session lines ++ refusal refused
  input : c.inbuf ++ c.incoming
    = (lines.flatMap fun line => line ++ [newline]) ++ (c'.inbuf ++ c'.incoming)
  plain : ∀ line ∈ lines, newline ∉ line
  last : refused = true → c'.closeAfterFlush = true
  /-- A client that is about to be closed is not listened to. -/
  closing : c.closeAfterFlush = true →
    lines = [] ∧ refused = false ∧ c'.closeAfterFlush = true

theorem LinesHandled.trans {c'' : Client σ} {lines' : List Bytes} {refused' : Bool}
    (h : LinesHandled handle c c' lines refused) (h' : LinesHandled handle c' c'' lines' refused') :
    LinesHandled handle c c'' (lines ++ lines') (refused || refused') := by
  -- behind a refusal there is nothing
  have hsilent : refused = true → lines' = [] ∧ refused' = false := fun hr =>
    ⟨(h'.closing (h.last hr)).1, (h'.closing (h.last hr)).2.1⟩
  refine ⟨?_, ?_, ?_, ?_, ?_, ?_⟩
  · rw [h'.session, h.session, behind, behind, behind, List.foldl_append]
  · rw [h'.said, h.said, h.session, sayings_append]
    cases refused with
    | false => simp [refusal]
    | true =>
        obtain ⟨rfl, rfl⟩ := hsilent rfl
        simp [refusal, sayings]
  · rw [h.input, h'.input, List.flatMap_append, List.append_assoc]
  · exact List.forall_mem_append.mpr ⟨h.plain, h'.plain⟩
  · intro hr
    rcases Bool.or_eq_true_iff.mp hr with hr | hr
    · exact (h'.closing (h.last hr)).2.2
    · exact h'.last hr
  · intro hclose
    obtain ⟨rfl, rfl, hclose'⟩ := h.closing hclose
    obtain ⟨rfl, rfl, hclose''⟩ := h'.closing hclose'
    exact ⟨rfl, rfl, hclose''⟩

theorem OnlyBytesSent.heard (h : OnlyBytesSent c c') : LinesHandled handle c c' [] false := by
  refine ⟨h.session, ?_, ?_, by simp, by simp, fun hclose => ⟨rfl, rfl, h.closing.trans hclose⟩⟩
  · rw [h.bytes]
    simp [sayings, refusal]
  · rw [h.inbuf, h.incoming]
    rfl

/-- One line. -/
theorem linesHandled_handled {line rest : Bytes} (hopen : c.closeAfterFlush = false)
    (hcut : cutLine newline c.inbuf = some (line, rest)) :
    LinesHandled handle c (c.handled (handle c.session (chomp line)) rest) [line] false := by
  obtain ⟨hinbuf, hline⟩ := cutLine_eq_some.mp hcut
  refine ⟨rfl, ?_, ?_,
    by simpa using hline, by simp, fun h => absurd (hopen.symm.trans h) (by simp)⟩
  · rw [Client.unsent_handled]
    show c.written ++ _ = _
    simp [sayings, refusal]
  · show c.inbuf ++ c.incoming = _ ++ (rest ++ c.incoming)
    rw [hinbuf]
    simp

theorem linesHandled_processed (h : Processed handle c c') :
    ∃ lines refused, LinesHandled handle c c' lines refused := by
  induction h with
  | closing | waiting => exact ⟨[], false, OnlyBytesSent.heard ⟨rfl, rfl, rfl, rfl, rfl, rfl⟩⟩
  | @tooLong c hopen hnone hlen =>
      refine ⟨[], true, rfl, ?_, rfl, by simp, fun _ => rfl,
        fun h => absurd (hopen.symm.trans h) (by simp)⟩
      show c.written ++ (c.push (ascii "-ERR line too long\n")).unsent = _
      rw [Client.unsent_push]
      simp [sayings, refusal]
  | quit hopen hcut hquit =>
      have h := @linesHandled_handled σ handle _ _ _ hopen hcut
      exact ⟨_, _, h.session, h.said, h.input, h.plain, fun _ => rfl,
        fun h => absurd (hopen.symm.trans h) (by simp)⟩
  | paused hopen hcut hquit hfull =>
      have h := @linesHandled_handled σ handle _ _ _ hopen hcut
      exact ⟨_, _, h.session, h.said, h.input, h.plain, h.last, h.closing⟩
  | next hopen hcut hquit hroom hrest ih =>
      obtain ⟨lines, refused, hlines⟩ := ih
      exact ⟨_, _, (linesHandled_handled hopen hcut).trans hlines⟩

theorem linesHandled_flush {calls : List Call} {ok : Bool}
    (hflush : c.flush handle calls = (c', ok)) :
    ∃ lines refused, LinesHandled handle c c' lines refused := by
  refine flush_keeps (P := fun c' => ∃ lines refused, LinesHandled handle c c' lines refused) ?_ ?_
    ⟨[], false, OnlyBytesSent.heard ⟨rfl, rfl, rfl, rfl, rfl, rfl⟩⟩ hflush
  · rintro c₁ c₂ ⟨lines, refused, h⟩ hu
    exact ⟨_, _, h.trans hu.heard⟩
  · rintro c₁ c₂ ⟨lines, refused, h⟩ - hsent hprocessed
    obtain ⟨lines', refused', h'⟩ := linesHandled_processed hprocessed
    have hcleared : LinesHandled handle c₁
        { c₁ with outbuf := [], outSent := 0, sent_le := Nat.zero_le _, readingPaused := false }
        [] false := by
      refine ⟨rfl, ?_, rfl, by simp, by simp, fun hc => ⟨rfl, rfl, hc⟩⟩
      rw [hsent]
      show c₁.written ++ [] = _
      simp [sayings, refusal]
    exact ⟨_, _, (h.trans hcleared).trans h'⟩

theorem linesHandled_read {calls : List Call} {peerClosed ok : Bool}
    (h : Read c calls (c', peerClosed, ok)) : LinesHandled handle c c' [] false := by
  cases h with
  | nothing | ended => exact OnlyBytesSent.heard ⟨rfl, rfl, rfl, rfl, rfl, rfl⟩
  | chunk hgo hbytes =>
      refine ⟨rfl, by simp [sayings, refusal, Client.unsent], ?_, by simp, by simp,
        fun hc => ⟨rfl, rfl, hc⟩⟩
      rw [hbytes]
      simp

theorem linesHandled_onReadable {calls : Calls} {ok : Bool}
    (h : onReadable handle c calls = (c', ok)) :
    ∃ lines refused, LinesHandled handle c c' lines refused := by
  have hserved : ∀ {c₁ c₂ : Client σ} {peerClosed ok : Bool},
      Read c calls.reads (c₁, peerClosed, true) →
      (c₁.processInput handle).flush handle calls.writesAfter = (c₂, ok) →
      ∃ lines refused, LinesHandled handle c c₂ lines refused := by
    intro c₁ c₂ peerClosed ok hread hflush
    obtain ⟨lines, refused, hprocessed⟩ := linesHandled_processed (processed handle c₁)
    obtain ⟨lines', refused', hflushed⟩ := linesHandled_flush hflush
    exact ⟨_, _, ((linesHandled_read hread).trans hprocessed).trans hflushed⟩
  have hinput := input_effect handle c calls
  rw [h] at hinput
  cases hinput with
  | readFailed => exact ⟨[], false, OnlyBytesSent.heard ⟨rfl, rfl, rfl, rfl, rfl, rfl⟩⟩
  | flushFailed hread hflush => exact hserved hread hflush
  | served hread hflush => exact hserved hread hflush
  | ended hgo hend hflush =>
      obtain ⟨lines, refused, hheard⟩ := hserved (.ended hgo hend) hflush
      exact ⟨lines, refused, hheard.session, hheard.said, hheard.input, hheard.plain, fun _ => rfl,
        fun hclose => ⟨(hheard.closing hclose).1, (hheard.closing hclose).2.1, rfl⟩⟩

/-- **A turn is the handling of some lines**, one after the other. -/
theorem linesHandled_turn (handle : Handler σ) (c : Client σ) (event : ReadyEvent) (calls : Calls) :
    ∃ lines refused, LinesHandled handle c (handleClient handle c event calls).1 lines refused := by
  refine (turned handle c event calls).keeps
    (P := fun c' => ∃ lines refused, LinesHandled handle c c' lines refused)
    ⟨[], false, OnlyBytesSent.heard ⟨rfl, rfl, rfl, rfl, rfl, rfl⟩⟩ linesHandled_flush ?_ ?_
  · rintro c₁ c₂ ok ⟨lines, refused, h⟩ - - hread
    obtain ⟨lines', refused', h'⟩ := linesHandled_onReadable hread
    exact ⟨_, _, h.trans h'⟩
  · rintro c₁ ⟨lines, refused, h⟩
    exact ⟨_, _, h.trans (onlyBytesSent_updateInterest c₁).heard⟩

end KvStore.Net.EventLoop

namespace KvStore.Net.Server

open Lib Wal Protocol
open EventLoop (Client LinesHandled behind sayings refusal handleClient)
open Sessions (Event)
open Dialogue (Traffic handleLine_reply outcome)
open Repl (ascii newline)

variable {cfg : StoreConfig}

/-! ## Lines of a session -/

/-- A line that has not thrown was handled, and has a reply. -/
theorem handleLine_ok {shared : Shared cfg} {session : Session} {line : Bytes}
    (h : (handleLine cfg (shared, session) line).session.1.threw = false) :
    shared.threw = false
      ∧ ∃ text, (session.handleLine shared.store line (shared.script.headD {})).reply = .ok text
        ∧ handleLine cfg (shared, session) line
          = { session :=
                ({ store := (session.handleLine shared.store line (shared.script.headD {})).store
                   script := shared.script.tail },
                  (session.handleLine shared.store line (shared.script.headD {})).session)
              text := text
              quit := (session.handleLine shared.store line (shared.script.headD {})).quit } := by
  unfold handleLine at h ⊢
  dsimp only at h ⊢
  split at h
  · rename_i hthrew
    exact absurd (hthrew.symm.trans h) (by simp)
  · rename_i hthrew
    rw [if_neg hthrew]
    cases hreply : (session.handleLine shared.store line (shared.script.headD {})).reply with
    | ok text => exact ⟨Bool.eq_false_iff.mpr hthrew, text, rfl, rfl⟩
    | error e =>
        rw [hreply] at h
        exact absurd h (by simp)

/-- Behind an exception there is nothing more. -/
theorem threw_behind {r : Shared cfg × Session} (lines : List Bytes) (h : r.1.threw = true) :
    (behind (handleLine cfg) r lines).1.threw = true := by
  induction lines generalizing r with
  | nil => exact h
  | cons line lines ih =>
      have hsame : handleLine cfg r (chomp line) = { session := r, text := [], quit := true } :=
        if_pos h
      refine ih ?_
      dsimp only
      rw [hsame]
      exact h

/-- The lines of a turn as events, each with what the world does meanwhile. -/
def linesOf (fd : Int) : List World → List Bytes → List (Event Int)
  | _, [] => []
  | script, line :: lines =>
      .line fd (chomp line) (script.headD {}) :: linesOf fd script.tail lines

/-- What the dialogues are behind some lines of one session; the others are as they were. -/
structure DialogueAfterLines (fd : Int) (t t' : Dialogue.State cfg Int) (r : Shared cfg × Session)
    (lines : List Bytes) (said : Bytes) : Prop where
  store : t'.store = r.1.store
  own : t'.sessions fd = some r.2
  others : ∀ fd', fd' ≠ fd → t'.sessions fd' = t.sessions fd' ∧ t'.traffic fd' = t.traffic fd'
  replies : (t'.traffic fd).replies.length = (t.traffic fd).replies.length + lines.length
  lines : (t'.traffic fd).lines = (t.traffic fd).lines ++ lines.map chomp
  said : (t'.traffic fd).stream = (t.traffic fd).stream ++ said

theorem DialogueAfterLines.trans {fd : Int} {t t' t'' : Dialogue.State cfg Int}
    {r r' : Shared cfg × Session}
    {front back : List Bytes} {said said' : Bytes} (h : DialogueAfterLines fd t t' r front said)
    (h' : DialogueAfterLines fd t' t'' r' back said') :
    DialogueAfterLines fd t t'' r' (front ++ back) (said ++ said') := by
  refine ⟨h'.store, h'.own, fun fd' hne => ?_, ?_, ?_, ?_⟩
  · exact ⟨(h'.others fd' hne).1.trans (h.others fd' hne).1,
      (h'.others fd' hne).2.trans (h.others fd' hne).2⟩
  · rw [h'.replies, h.replies, List.length_append, Nat.add_assoc]
  · rw [h'.lines, h.lines, List.map_append, List.append_assoc]
  · rw [h'.said, h.said, List.append_assoc]

/-- One line of one session. -/
theorem dialogueAfterLines_line {fd : Int} {t : Dialogue.State cfg Int} {shared : Shared cfg}
    {session : Session} (hstore : t.store = shared.store) (ht : t.sessions fd = some session)
    {line : Bytes} (hok : (handleLine cfg (shared, session) (chomp line)).session.1.threw = false) :
    ∃ t',
      (Dialogue.system cfg Int).step t (.line fd (chomp line) (shared.script.headD {})) = some t'
      ∧ DialogueAfterLines fd t t' (handleLine cfg (shared, session) (chomp line)).session [line]
        (handleLine cfg (shared, session) (chomp line)).text := by
  obtain ⟨-, text, htext, hresult⟩ := handleLine_ok hok
  have hsystem : (Dialogue.system cfg Int).step = Dialogue.step := rfl
  rw [hresult, hsystem, Dialogue.step, ht]
  dsimp only
  rw [hstore, htext]
  refine ⟨_, rfl, rfl, Function.update_self .., fun fd' hne => ?_, ?_, ?_, ?_⟩
  · exact ⟨Function.update_of_ne hne .., Function.update_of_ne hne ..⟩
  · dsimp only
    rw [Function.update_self, List.length_append]
    rfl
  · dsimp only
    rw [Function.update_self]
    rfl
  · dsimp only
    rw [Function.update_self]
    simp [Traffic.stream]

/-- **The lines of a turn**, handled by the session of the client, unless one of them throws. -/
theorem dialogueAfterLines_lines {fd : Int} {t : Dialogue.State cfg Int} {shared : Shared cfg}
    {session : Session} (hstore : t.store = shared.store) (ht : t.sessions fd = some session)
    {lines : List Bytes}
    (hok : (behind (handleLine cfg) (shared, session) lines).1.threw = false) :
    ∃ t', (Dialogue.system cfg Int).run t (linesOf fd shared.script lines) = some t'
      ∧ DialogueAfterLines fd t t' (behind (handleLine cfg) (shared, session) lines) lines
        (sayings (handleLine cfg) (shared, session) lines) := by
  induction lines generalizing t shared session with
  | nil =>
      exact ⟨t, rfl, hstore, ht, fun _ _ => ⟨rfl, rfl⟩, rfl, (List.append_nil _).symm,
        (List.append_nil _).symm⟩
  | cons line lines ih =>
      -- if the first had thrown, the last would have
      have hfirstOk : (handleLine cfg (shared, session) (chomp line)).session.1.threw = false := by
        rw [← Bool.not_eq_true]
        intro hthrew
        have hbad := threw_behind lines hthrew
        exact absurd (hbad.symm.trans hok) (by simp)
      obtain ⟨t₁, hstep, hfirst⟩ := dialogueAfterLines_line hstore ht hfirstOk
      have hscript : (handleLine cfg (shared, session) (chomp line)).session.1.script
          = shared.script.tail := by
        obtain ⟨-, text, -, hresult⟩ := handleLine_ok hfirstOk
        rw [hresult]
      obtain ⟨t', hrun, hrest⟩ := ih hfirst.store hfirst.own hok
      rw [hscript] at hrun
      refine ⟨t', ?_, hfirst.trans hrest⟩
      rw [linesOf, System.run, List.foldlM_cons, hstep]
      exact hrun

/-! ## The loop beside the dialogues -/

/-- What a client has sent and has been told, next to what its session has. -/
structure SaysSameAs (stream : Bytes) (traffic : Traffic) (c : Client Session) : Prop where
  said : ∃ refused, c.written ++ c.unsent = traffic.stream ++ refusal refused
    ∧ (refused = true → c.closeAfterFlush = true)
  heard : ∃ lines : List Bytes, traffic.lines = lines.map chomp
    ∧ traffic.replies.length = lines.length ∧ (∀ line ∈ lines, newline ∉ line)
    ∧ stream = (lines.flatMap fun line => line ++ [newline]) ++ (c.inbuf ++ c.incoming)

/-- The sessions of the loop are those of the dialogues, and so is what they have said. -/
structure SessionsInDialogue (s : Loop.State (Shared cfg) Session) (t : Dialogue.State cfg Int) :
    Prop where
  store : t.store = s.shared.store
  sessions : ∀ fd, t.sessions fd = (s.clients.lookup fd).map (·.session)
  clients : ∀ fd c, s.clients.lookup fd = some c → SaysSameAs (s.streams fd) (t.traffic fd) c

/-- The dialogues go on by some events, and follow. -/
def DialogueGoesOn (t : Dialogue.State cfg Int) (s' : Loop.State (Shared cfg) Session) : Prop :=
  ∃ events t', (Dialogue.system cfg Int).run t events = some t' ∧ SessionsInDialogue s' t'

section Steps

variable {s s' : Loop.State (Shared cfg) Session} {t : Dialogue.State cfg Int}

/-- Nothing is said. -/
theorem SessionsInDialogue.simulated (h : SessionsInDialogue s t) : DialogueGoesOn t s :=
  ⟨[], t, rfl, h⟩

/-- One event. -/
theorem dialogueGoesOn_event {e : Event Int} {t' : Dialogue.State cfg Int}
    (hstep : Dialogue.step t e = some t') (h : SessionsInDialogue s t') : DialogueGoesOn t s :=
  ⟨[e], t', by simp [System.run, Dialogue.system, hstep], h⟩

theorem DialogueGoesOn.trans {t : Dialogue.State cfg Int} (h : DialogueGoesOn t s)
    (hnext : ∀ t', SessionsInDialogue s t' → DialogueGoesOn t' s') : DialogueGoesOn t s' := by
  obtain ⟨events, t', hrun, hfollows⟩ := h
  obtain ⟨events', t'', hrun', hfollows'⟩ := hnext t' hfollows
  refine ⟨events ++ events', t'', ?_, hfollows'⟩
  rw [System.run] at hrun hrun' ⊢
  rw [List.foldlM_append, hrun]
  exact hrun'

/-- A client has had its turn, and none of its lines has thrown. -/
theorem sessionsInDialogue_turned (h : SessionsInDialogue s t) {fd : Int} {c : Client Session}
    (hc : s.clients.lookup fd = some c) {event : EventLoop.ReadyEvent} {calls : EventLoop.Calls}
    (hok : (handleClient (handleLine cfg) (Loop.lift s.shared c) event calls).1.session.1.threw
      = false) :
    DialogueGoesOn t (s.turned fd c
      (handleClient (handleLine cfg) (Loop.lift s.shared c) event calls)) := by
  obtain ⟨lines, refused, hheard⟩ :=
    EventLoop.linesHandled_turn (handleLine cfg) (Loop.lift s.shared c) event calls
  generalize handleClient (handleLine cfg) (Loop.lift s.shared c) event calls = r at hheard hok
  have hsession : t.sessions fd = some c.session := by rw [h.sessions, hc]; rfl
  have hafter : r.1.session = behind (handleLine cfg) (s.shared, c.session) lines := hheard.session
  have hsaid : r.1.written ++ r.1.unsent
      = c.written ++ c.unsent ++ sayings (handleLine cfg) (s.shared, c.session) lines
        ++ refusal refused := hheard.said
  rw [hafter] at hok
  obtain ⟨t', hrun, hadvanced⟩ := dialogueAfterLines_lines h.store hsession hok
  rw [← hafter] at hadvanced
  refine ⟨_, t', hrun, hadvanced.store, ?_, ?_⟩
  · intro fd'
    show _ = ((s.clients.insert fd (Loop.lower r.1)).lookup fd').map _
    by_cases heq : fd' = fd
    · rw [heq, hadvanced.own, Finmap.lookup_insert]
      rfl
    · rw [(hadvanced.others fd' heq).1, Finmap.lookup_insert_of_ne _ heq, h.sessions]
  · intro fd' c' hc'
    replace hc' : (s.clients.insert fd (Loop.lower r.1)).lookup fd' = some c' := hc'
    by_cases heq : fd' = fd
    · subst heq
      rw [Finmap.lookup_insert] at hc'
      cases hc'
      obtain ⟨⟨before, hbefore, hlast⟩, earlier, hlines, hreplies, hplain, hstream⟩ :=
        h.clients fd' c hc
      refine ⟨⟨before || refused, ?_, fun hr => ?_⟩, earlier ++ lines, ?_, ?_, ?_, ?_⟩
      · show r.1.written ++ r.1.unsent = _
        rw [hsaid, hadvanced.said, hbefore]
        cases before with
        | false => simp [refusal]
        | true =>
            -- a client that was refused says no more
            obtain ⟨rfl, rfl, -⟩ := hheard.closing (hlast rfl)
            simp [refusal, sayings]
      · rcases Bool.or_eq_true_iff.mp hr with hr | hr
        · exact (hheard.closing (hlast hr)).2.2
        · exact hheard.last hr
      · rw [hadvanced.lines, hlines, List.map_append]
      · rw [hadvanced.replies, hreplies, List.length_append]
      · exact List.forall_mem_append.mpr ⟨hplain, hheard.plain⟩
      · show s.streams fd' = _
        rw [hstream, List.flatMap_append, List.append_assoc]
        exact congrArg _ hheard.input
    · rw [Finmap.lookup_insert_of_ne _ heq] at hc'
      rw [(hadvanced.others fd' heq).2]
      exact h.clients fd' c' hc'

/-- Where the loop is does not matter to the sessions. -/
theorem SessionsInDialogue.frame (h : SessionsInDialogue s t) (hshared : s'.shared = s.shared)
    (hclients : s'.clients = s.clients) (hstreams : s'.streams = s.streams) :
    SessionsInDialogue s' t := by
  refine ⟨hshared ▸ h.store, ?_, ?_⟩
  · rw [hclients]
    exact h.sessions
  · rw [hclients, hstreams]
    exact h.clients

theorem SessionsInDialogue.same (h : SessionsInDialogue s t) (hshared : s'.shared = s.shared)
    (hclients : s'.clients = s.clients) (hstreams : s'.streams = s.streams) : DialogueGoesOn t s' :=
  (h.frame hshared hclients hstreams).simulated

/-- A client has come. -/
theorem sessionsInDialogue_welcome (h : SessionsInDialogue s t) {fd : Int} (hnew : fd ∉ s.clients)
    (stream : Bytes) (nonBlocking room : Bool) :
    DialogueGoesOn t (s.welcome {} destroySession fd stream nonBlocking room) := by
  unfold Loop.State.welcome
  cases nonBlocking with
  | false => exact h.simulated
  | true =>
      rw [if_pos rfl]
      generalize s.poller.add room fd true false = r
      obtain ⟨p, ok⟩ := r
      cases ok with
      | false => exact h.same rfl rfl rfl
      | true =>
          dsimp only
          rw [if_neg hnew]
          have hnone : t.sessions fd = none := by
            rw [h.sessions, Finmap.lookup_eq_none.mpr hnew]
            rfl
          have hstep : Dialogue.step t (.connect fd)
              = some
                { t with
                  sessions := Function.update t.sessions fd (some {})
                  traffic := Function.update t.traffic fd {} } := by
            rw [Dialogue.step, hnone]
          refine dialogueGoesOn_event hstep ⟨h.store, fun fd' => ?_, fun fd' c hc => ?_⟩
          · dsimp only
            by_cases heq : fd' = fd
            · rw [heq, Function.update_self, Finmap.lookup_insert]
              rfl
            · rw [Function.update_of_ne heq, Finmap.lookup_insert_of_ne _ heq, h.sessions]
          · dsimp only at hc ⊢
            by_cases heq : fd' = fd
            · subst heq
              rw [Finmap.lookup_insert] at hc
              cases hc
              rw [Function.update_self, Function.update_self]
              exact ⟨⟨false, rfl, by simp⟩, [], rfl, rfl, by simp, rfl⟩
            · rw [Finmap.lookup_insert_of_ne _ heq] at hc
              rw [Function.update_of_ne heq, Function.update_of_ne heq]
              exact h.clients fd' c hc

theorem sessionsInDialogue_acceptNew (h : SessionsInDialogue s t) (hinv : Loop.Inv s)
    {events : List ReadyEvent}
    (hphase : s.phase = .serving events) {n : Nat} {answers : List Loop.Accepted}
    (hs : Loop.acceptNew {} destroySession n s answers = some s') : DialogueGoesOn t s' := by
  induction n generalizing s t answers with
  | zero =>
      cases hs
      exact h.simulated
  | succ n ih =>
      cases answers with
      | nil =>
          cases hs
          exact h.simulated
      | cons answer answers =>
          cases answer with
          | nobody =>
              cases hs
              exact h.simulated
          | failed =>
              cases hs
              exact h.simulated
          | socket fd stream nonBlocking room =>
              rw [Loop.acceptNew] at hs
              split at hs
              · exact absurd hs (by simp)
              · rename_i hnew
                have hfd : fd ∉ s.clients := fun hmem => hnew (.inr ((hinv.opened fd).mpr hmem))
                obtain ⟨hnext, hsame⟩ :=
                  @Loop.inv_welcome (Shared cfg) Session {} destroySession s hinv
                  events hphase fd hnew stream nonBlocking room
                exact (sessionsInDialogue_welcome h hfd stream nonBlocking room).trans fun t' ht' =>
                  ih ht' hnext (hsame.trans hphase) hs

/-- A client has gone, and its session with it. -/
theorem sessionsInDialogue_destroyed (h : SessionsInDialogue s t) {fd : Int} {c : Client Session}
    (hc : s.clients.lookup fd = some c) : DialogueGoesOn t (s.destroyed destroySession fd c) := by
  have hsome : t.sessions fd = some c.session := by rw [h.sessions, hc]; rfl
  have hstep : Dialogue.step t (.disconnect fd)
      = some
        { t with
          store := c.session.destroy t.store
          sessions := Function.update t.sessions fd none } := by
    rw [Dialogue.step, hsome]
  refine dialogueGoesOn_event hstep ⟨?_, fun fd' => ?_, fun fd' c' hc' => ?_⟩
  · dsimp only
    rw [h.store]
    rfl
  · show Function.update t.sessions fd none fd' = ((s.clients.erase fd).lookup fd').map _
    by_cases heq : fd' = fd
    · rw [heq, Function.update_self, Finmap.lookup_erase]
      rfl
    · rw [Function.update_of_ne heq, Finmap.lookup_erase_ne heq, h.sessions]
  · replace hc' : (s.clients.erase fd).lookup fd' = some c' := hc'
    by_cases heq : fd' = fd
    · rw [heq, Finmap.lookup_erase] at hc'
      exact absurd hc' (by simp)
    · rw [Finmap.lookup_erase_ne heq] at hc'
      exact h.clients fd' c' hc'

theorem sessionsInDialogue_step (h : SessionsInDialogue s t) (hinv : Loop.Inv s) {a : Loop.Act}
    (hs : Loop.step {} destroySession (handleLine cfg) s a = some s')
    (hok : s'.shared.threw = false) : DialogueGoesOn t s' := by
  cases a with
  | wait call =>
      rw [Loop.step] at hs
      split at hs
      · split at hs
        · cases hs
          exact h.same rfl rfl rfl
        · split at hs
          · exact absurd hs (by simp)
          · split at hs
            · cases hs
              exact h.same rfl rfl rfl
            · cases hs
              exact h.same rfl rfl rfl
      · exact absurd hs (by simp)
  | accept answers =>
      rw [Loop.step] at hs
      split at hs
      · rename_i event events hphase
        split at hs
        · have hnext : SessionsInDialogue { s with phase := .serving events } t :=
            h.frame rfl rfl rfl
          exact sessionsInDialogue_acceptNew hnext (Loop.inv_next hinv hphase) rfl hs
        · exact absurd hs (by simp)
      · exact absurd hs (by simp)
  | turn calls =>
      rw [Loop.step] at hs
      split at hs
      · rename_i event events hphase
        split at hs
        · exact absurd hs (by simp)
        · dsimp only at hs
          split at hs
          · cases hs
            exact h.same rfl rfl rfl
          · rename_i c hc
            cases hs
            have hnext : SessionsInDialogue { s with phase := .serving events } t :=
              h.frame rfl rfl rfl
            exact sessionsInDialogue_turned hnext hc hok
      · exact absurd hs (by simp)
  | close =>
      rw [Loop.step] at hs
      split at hs
      · rename_i fd fds hphase hpending
        cases hs
        unfold Loop.closeClient
        split
        · exact h.same rfl rfl rfl
        · rename_i c hc
          have hnext : SessionsInDialogue
              { s with pendingClose := fds, poller := (s.poller.remove fd).1 } t :=
            h.frame rfl rfl rfl
          exact sessionsInDialogue_destroyed hnext hc
      · cases hs
        exact h.same rfl rfl rfl
      · exact absurd hs (by simp)
  | shutdown =>
      cases hs
      exact h.same rfl rfl rfl
  | drop fd =>
      rw [Loop.step] at hs
      split at hs
      · rename_i c hphase hc
        cases hs
        exact sessionsInDialogue_destroyed h hc
      · exact absurd hs (by simp)

end Steps

theorem sessionsInDialogue_start {poller : Poller} {listener : Int} {st : Store cfg}
    {script : List World} {s : Loop.State (Shared cfg) Session}
    (h : Loop.start poller listener { store := st, script := script } = some s) :
    SessionsInDialogue s { store := st } := by
  unfold Loop.start at h
  split at h
  · cases h
    refine ⟨rfl, fun fd => ?_, fun fd c hc => ?_⟩
    · rw [Finmap.lookup_empty]
      rfl
    · rw [Finmap.lookup_empty] at hc
      exact absurd hc (by simp)
  · exact absurd h (by simp)

/--
**The loop serves sessions.** Whatever the clients send, in whatever pieces, and whatever the
sockets take: as long as no line has thrown, what the loop has done to the store is what some
sequence of whole lines does, each handled by the session of its client. The lines of a client
are what it has sent, cut at the newlines, in order; and what it has been sent and is going to
be sent are the replies to just these lines, one for each, and at the end perhaps that its
line is too long.
-/
theorem loop_serves_sessions {st : Store cfg} {script : List World}
    {s : Loop.State (Shared cfg) Session} (h : (eventLoop st script).ReachableBy Loop.Kernel s)
    (hrunning : s.shared.threw = false) :
    ∃ events t, (Dialogue.system cfg Int).run { store := st } events = some t
      ∧ t.store = s.shared.store
      ∧ (∀ fd, t.sessions fd = (s.clients.lookup fd).map fun c => c.session)
      ∧ ∀ fd c, s.clients.lookup fd = some c → ∃ (lines : List Bytes) (refused : Bool),
        s.streams fd = (lines.flatMap fun line => line ++ [newline]) ++ (c.inbuf ++ c.incoming)
          ∧ (∀ line ∈ lines, newline ∉ line)
          ∧ (t.traffic fd).lines = lines.map chomp
          ∧ (t.traffic fd).replies.length = lines.length
          ∧ c.written ++ c.unsent = (t.traffic fd).replies.flatten
            ++ if refused then ascii "-ERR line too long\n" else [] := by
  have hboth : Loop.Inv s ∧ (s.shared.threw = false → DialogueGoesOn { store := st } s) := by
    refine h.invariant
      (I := fun s => Loop.Inv s ∧ (s.shared.threw = false → DialogueGoesOn { store := st } s)) ?_ ?_
    · intro s hinit
      have hinv : Loop.Inv s := @Loop.inv_init _ _ {} destroySession (handleLine cfg) s _ hinit
      obtain ⟨poller, hpoller, listener, hstart⟩ := hinit
      exact ⟨hinv, fun _ => (sessionsInDialogue_start hstart).simulated⟩
    · rintro s a s' ⟨hinv, hsimulated⟩ hkernel hs
      -- there is no step from a state in which a line has thrown
      replace hs : (if s.shared.threw then none
        else Loop.step {} destroySession (handleLine cfg) s a) = some s' := hs
      split at hs
      · exact absurd hs (by simp)
      · rename_i hthrew
        exact ⟨Loop.inv_step hinv hkernel hs, fun hok => (hsimulated (by simpa using hthrew)).trans
          fun t ht => sessionsInDialogue_step ht hinv hs hok⟩
  obtain ⟨events, t, hrun, hfollows⟩ := hboth.2 hrunning
  refine ⟨events, t, hrun, hfollows.store, hfollows.sessions, fun fd c hc => ?_⟩
  obtain ⟨⟨refused, hsaid, -⟩, lines, hlines, hreplies, hplain, hstream⟩ := hfollows.clients fd c hc
  exact ⟨lines, refused, hstream, hplain, hlines, hreplies, hsaid⟩

/-- The disk is full when the first client commits; the other one has its turn all the same. -/
def twoClients : List Loop.Act :=
  [.wait (.poll (.returned [1])),
    .accept [.socket 5 (ascii "BEGIN\nSET a 1\nCOMMIT\nGE") true true,
      .socket 7 (ascii "GET a\r\nSET b 2\n") true true],
    .close, .wait (.poll (.returned [0, 1, 1])),
    .turn { reads := [.moved 100], writesAfter := [.moved 3, .wouldBlock] },
    .turn { reads := [.moved 100] }]

/-- What the world does during the first three lines. -/
def diskFull : List World := [{}, {}, { io := { writes := [.failed] } }]

theorem loop_serves_sessions_two :
    ∃ s events t, (eventLoop (Store.openOn standalone []) diskFull).ReachableBy Loop.Kernel s
      ∧ (Dialogue.system standalone Int).run { store := Store.openOn standalone [] } events = some t
      ∧ t.store = s.shared.store
      ∧ ∃ c, s.clients.lookup 7 = some c ∧ c.written = ascii "$nil\n+OK\n"
        ∧ t.sessions 7 = some c.session := by
  obtain ⟨s, c, hreach, hc, hwritten, hrunning⟩ := System.exists_reachableBy_some
    (g := fun s : Loop.State (Shared standalone) Session => s.clients.lookup 7)
    (p := fun s c => c.written = ascii "$nil\n+OK\n" ∧ s.shared.threw = false)
    (show (eventLoop (Store.openOn standalone []) diskFull).ReachableBy Loop.Kernel _ from
      .init ⟨.poll {}, List.mem_cons_self .., 3, rfl⟩)
    twoClients (by decide +kernel) (by decide +kernel)
  obtain ⟨events, t, hrun, hstore, hsessions, -⟩ := loop_serves_sessions hreach hrunning
  exact ⟨s, events, t, hreach, hrun, hstore, c, hc, hwritten, by rw [hsessions, hc]; rfl⟩

end KvStore.Net.Server
