import KvStore.Proof.Reading

/-!
# How the input is cut up

TCP gives a stream to the reader in pieces of its own choosing. Neither of the engines
should care: what is handed to the session, and what is said to the peer, should be a
matter of the lines of the stream.

Both engines are readers of lines, so they do not care as long as every line that is too
long is too long by at least one read. Otherwise they do. A line of one byte too many is
refused if a read ends between that byte and the newline, and handled if both come in
one read, which is the usual case.
-/

namespace KvStore.Net

open Lib Wal
open Repl (ascii newline)

variable {σ : Type} {handle : Handler σ} {session : σ} {stream : Bytes}

/-- A session that keeps the lines it is given. -/
def recording (handle : Handler σ) : Handler (σ × List Bytes) := fun s line =>
  let r := handle s.1 line
  { session := (r.session, s.2 ++ [line]), text := r.text, quit := r.quit }

theorem hand_recording (t : (σ × List Bytes) × Bytes) (line : Bytes) :
    (rules (recording handle)).hand t line
      = ((((handle t.1.1 (chomp line)).session, t.1.2 ++ [chomp line]),
        t.2 ++ (handle t.1.1 (chomp line)).text), (handle t.1.1 (chomp line)).quit) := rfl

/-- The session, the lines that were handed to it, and what was said to the peer. -/
abbrev Outcome (σ : Type) := (σ × List Bytes) × Bytes

/-- What should come of a stream: a line is refused exactly if it is too long. -/
def verdict (handle : Handler σ) (session : σ) (stream : Bytes) : Outcome σ :=
  (rules (recording handle)).verdict ((session, []), []) stream

/-- The first line that is too long, if one is reached, is too long by at least one read. -/
def NeverBarelyTooLong (chunk : Nat) (handle : Handler σ) (session : σ) (stream : Bytes) : Prop :=
  (rules (recording handle)).NeverBarelyTooLong chunk ((session, []), []) stream

instance (chunk : Nat) (handle : Handler σ) (session : σ) (stream : Bytes) :
    Decidable (NeverBarelyTooLong chunk handle session stream) :=
  inferInstanceAs (Decidable (LineRules.NeverBarelyTooLong ..))

/-- Some pieces with which it goes wrong, none of which has more than one line. -/
theorem exists_pieces_ne {chunk : Nat} (hchunk : 0 < chunk)
    (hnot : ¬ NeverBarelyTooLong chunk handle session stream) :
    ∃ pieces : List Bytes, pieces.flatten = stream
      ∧ (∀ piece ∈ pieces, LineRules.Tame newline chunk piece)
      ∧ (pieces.foldl (rules (recording handle)).feed { state := ((session, []), []) }).state
        ≠ verdict handle session stream :=
  LineRules.exists_feeds_ne (w := fun t => t.1.2.length)
    (fun _ _ => List.length_append) (fun _ => rfl) hchunk hnot

/-! ## One thread for one connection -/

namespace Connection

/-- The stream arrives in reads of some size, and nothing else happens. -/
structure Arrives (stream : Bytes) (turns : List Turn) : Prop where
  alone : ∀ t ∈ turns, t ≠ .shuttingDown ∧ t ≠ .error
  reads : ∀ bytes, .data bytes ∈ turns → bytes ≠ [] ∧ bytes.length ≤ kReadChunk
  all : arriving turns = stream

/-- What `run` may come to on a stream, if the peer takes what it is sent. -/
def Yields (handle : Handler σ) (session : σ) (stream : Bytes) (r : Outcome σ) : Prop :=
  ∃ ws turns, (∀ w ∈ ws, .failed ∉ w) ∧ Arrives stream turns
    ∧ r = ((run (recording handle) { session := (session, []) } ws turns).session,
      (run (recording handle) { session := (session, []) } ws turns).written)

theorem pieces_le {turns : List Turn} (h : Arrives stream turns) :
    ∀ piece ∈ pieces turns, piece.length ≤ kReadChunk := by
  have hreads := h.reads
  clear h
  fun_induction pieces turns with
  | case1 bytes turns ih =>
      intro piece hpiece
      rcases List.mem_cons.mp hpiece with rfl | hpiece
      · exact (hreads piece (List.mem_cons_self ..)).2
      · exact ih (fun b hb => hreads b (List.mem_cons_of_mem _ hb)) piece hpiece
  | case2 turns ih => exact ih fun b hb => hreads b (List.mem_cons_of_mem _ hb)
  | case3 => simp

theorem Yields.eq_verdict {r : Outcome σ} (h : Yields handle session stream r)
    (hnever : NeverBarelyTooLong kReadChunk handle session stream) :
    r = verdict handle session stream := by
  obtain ⟨ws, turns, hws, harrives, rfl⟩ := h
  have hlens := pieces_le harrives
  rw [run_feeds hws harrives.alone]
  rw [← harrives.all, ← flatten_pieces] at hnever ⊢
  exact (LineRules.onTrack_start hnever).feeds_all hlens

theorem pieces_map (ps : List Bytes) : pieces (ps.map .data) = ps := by
  induction ps with
  | nil => rfl
  | cons p ps ih => rw [List.map_cons, pieces, ih]

/-- Any pieces may arrive. -/
theorem yields_pieces (handle : Handler σ) (session : σ) {ps : List Bytes}
    (htame : ∀ p ∈ ps, LineRules.Tame newline kReadChunk p) :
    Yields handle session ps.flatten
      (ps.foldl (rules (recording handle)).feed { state := ((session, []), []) }).state := by
  have halone : ∀ t ∈ ps.map Turn.data, t ≠ .shuttingDown ∧ t ≠ .error := by
    intro t ht
    obtain ⟨p, -, rfl⟩ := List.mem_map.mp ht
    exact ⟨by simp, by simp⟩
  refine ⟨[], ps.map .data, by simp, ⟨halone, fun bytes hbytes => ?_, ?_⟩, ?_⟩
  · obtain ⟨p, hp, heq⟩ := List.mem_map.mp hbytes
    cases heq
    exact ⟨(htame _ hp).1, (htame _ hp).2.1⟩
  · rw [← flatten_pieces, pieces_map]
  · rw [run_feeds (by simp) halone, pieces_map]
    rfl

end Connection

/-! ## One thread for all -/

namespace EventLoop

variable {c c' : Client σ} {f : LineReader (σ × Bytes) UInt8}

/-- The input of a client has been dealt with. -/
def Finished (s : State σ) : Prop :=
  s.client.closeAfterFlush = true
    ∨ s.closed = false ∧ s.client.readingPaused = false ∧ s.client.incoming = []

/-- What the event loop may come to on a stream. -/
def Yields (handle : Handler σ) (session : σ) (stream : Bytes) (r : Outcome σ) : Prop :=
  ∃ s, (system (recording handle) (session, []) stream).Reachable s ∧ Finished s
    ∧ r = (s.client.session, s.client.written ++ s.client.unsent)

theorem Yields.eq_verdict {r : Outcome σ} (h : Yields handle session stream r)
    (hnever : NeverBarelyTooLong kReadChunk handle session stream) :
    r = verdict handle session stream := by
  obtain ⟨s, hreach, hfinished, rfl⟩ := h
  obtain ⟨pieces, more, rfl, hlens, hfollows⟩ := follows_reachable hreach
  have hboth : (fed (recording handle) (session, []) pieces).state
        = (s.client.session, s.client.written ++ s.client.unsent)
      ∧ ((fed (recording handle) (session, []) pieces).stopped = true ∨ more = []) := by
    rcases hfinished with hclosing | ⟨hopen, hgo, hend⟩
    · exact hfollows.closing hclosing
    · exact ⟨hfollows.state_eq ((ready_reachable hreach).waiting hopen hgo),
        .inr (hfollows.incoming.symm.trans hend)⟩
  rw [← hboth.1]
  exact LineRules.feeds_eq_verdict hlens hnever hboth.2

/-! ### Any pieces may be read -/

/-- A client that reads, and has everything it was to be sent. -/
structure Idle (s : State σ) : Prop where
  opened : s.closed = false
  reading : s.client.readingPaused = false
  serving : s.client.closeAfterFlush = false
  sent : s.client.unsent = []

/-- One piece is read, and the socket takes all output there is. -/
def readsPiece (piece : Bytes) : Act :=
  { event := { readable := true }, calls := { reads := [.moved (piece.length - 1)] } }

theorem readFrom_piece {piece rest : Bytes} (hgo : c.readingPaused = false)
    (hincoming : c.incoming = piece ++ rest) (hne : piece ≠ []) (hlen : piece.length ≤ kReadChunk) :
    ∃ c', c.readFrom [.moved (piece.length - 1)] = (c', false, true)
      ∧ c'.inbuf = c.inbuf ++ piece ∧ c'.incoming = rest ∧ c'.readingPaused = false := by
  have hpos := List.length_pos_of_ne_nil hne
  have htake : c.incoming.take (min (piece.length - 1 + 1) kReadChunk) = piece := by
    rw [hincoming, Nat.sub_add_cancel hpos, Nat.min_eq_left hlen, List.take_left]
  unfold Client.readFrom
  rw [if_neg (by rw [hgo]; simp)]
  dsimp only
  rw [htake, if_neg hne]
  refine ⟨_, rfl, rfl, ?_, hgo⟩
  rw [hincoming, List.drop_left]

/-- Of a piece with at most one line nothing is left behind the line. -/
theorem processed_piece {front piece : Bytes} (hfront : cutLine newline front = none)
    (hlast : newline ∉ piece.dropLast) (hinbuf : c.inbuf = front ++ piece)
    (hgo : c.readingPaused = false) (hp : Processed handle c c') :
    c'.incoming = c.incoming
      ∧ (c'.readingPaused = true → c'.closeAfterFlush = false ∧ c'.inbuf = []) := by
  have hnothing {line rest : Bytes} (hcut : cutLine newline c.inbuf = some (line, rest)) :
      rest = [] := cutLine_append_last hfront hlast (hinbuf ▸ hcut)
  have hno {P : Prop} : c.readingPaused = true → P :=
    fun hpaused => absurd (hgo.symm.trans hpaused) (by simp)
  cases hp with
  | closing => exact ⟨rfl, hno⟩
  | waiting => exact ⟨rfl, hno⟩
  | tooLong => exact ⟨rfl, hno⟩
  | quit => exact ⟨rfl, hno⟩
  | paused hopen hcut => exact ⟨rfl, fun _ => ⟨hopen, hnothing hcut⟩⟩
  | @next _ _ line rest hopen hcut _ _ hrest =>
      obtain rfl := hnothing hcut
      have hwaiting : Waiting (c.handled (handle c.session (chomp line)) []) :=
        ⟨hgo, fun _ => ⟨rfl, Nat.zero_le _⟩⟩
      rw [hwaiting.eq_of_processed hrest]
      exact ⟨rfl, hno⟩

theorem unsent_updateInterest (c : Client σ) : c.updateInterest.unsent = c.unsent := by
  unfold Client.updateInterest
  dsimp only
  split
  · rfl
  · rfl

/-- The socket takes everything, and nothing comes of it. -/
theorem flush_all (handle : Handler σ)
    (hpaused : c.readingPaused = true → c.closeAfterFlush = false ∧ c.inbuf = []) :
    ∃ c', c.flush handle [] = (c', true) ∧ c'.incoming = c.incoming
      ∧ c'.closeAfterFlush = c.closeAfterFlush ∧ c'.readingPaused = false ∧ c'.unsent = [] := by
  have hsent : (c.sent c.outbuf.length).unsent = [] := by
    rw [c.unsent_sent]
    exact List.drop_of_length_le (by rw [c.length_unsent]; omega)
  have hafter := afterWrites_effect handle (c.sent c.outbuf.length)
  unfold Client.flush Client.writeLoop
  dsimp only
  generalize (c.sent c.outbuf.length).afterWrites handle = c₁ at hafter
  have hemptied : c₁.incoming = c.incoming ∧ c₁.closeAfterFlush = c.closeAfterFlush
      ∧ c₁.readingPaused = false ∧ c₁.unsent = [] := by
    cases hafter with
    -- a client that was paused goes on, but has no line left to go on with
    | resumed _ hp hprocessed =>
        obtain ⟨hopen, hinbuf⟩ := hpaused hp
        have hwaiting : Waiting { c.sent c.outbuf.length with
            outbuf := [], outSent := 0, sent_le := Nat.zero_le _, readingPaused := false } :=
          ⟨rfl, fun _ => by
            show cutLine newline c.inbuf = none ∧ c.inbuf.length ≤ _
            rw [hinbuf]
            exact ⟨rfl, Nat.zero_le _⟩⟩
        rw [hwaiting.eq_of_processed hprocessed]
        exact ⟨rfl, rfl, rfl, rfl⟩
    | emptied _ hgo => exact ⟨rfl, rfl, hgo, rfl⟩
    | moved hmore => exact absurd hsent hmore
    | left hmore => exact absurd hsent hmore
  obtain ⟨hincoming, hclosing, hgo, hnil⟩ := hemptied
  have hsame := onlyBytesSent_updateInterest c₁
  rw [← c₁.length_unsent, hnil, if_neg (by simp)]
  refine ⟨_, rfl, hsame.incoming.trans hincoming, hsame.closing.trans hclosing,
    hsame.paused.trans hgo, ?_⟩
  rw [unsent_updateInterest, hnil]

/-- Reading a piece leads from an idle client to an idle client, or to the end. -/
theorem step_readsPiece (handle : Handler σ) {s : State σ} (hready : Ready s) (h : Idle s)
    {piece rest : Bytes} (hincoming : s.client.incoming = piece ++ rest)
    (htame : LineRules.Tame newline kReadChunk piece) :
    ∃ s', step handle s (readsPiece piece) = some s' ∧ s'.client.incoming = rest
      ∧ (s'.client.closeAfterFlush = true ∨ Idle s') := by
  obtain ⟨hne, hlen, hlast⟩ := htame
  obtain ⟨hcalm, hwants, -⟩ := hready.attended h.opened
  have hrespects : Respects (readsPiece piece).event s.client.registered := by
    refine ⟨fun _ => ?_, fun hno => Bool.noConfusion hno⟩
    rw [hcalm.told, hwants, h.reading]
    rfl
  obtain ⟨c₁, hread, hinbuf, hrest, hgo⟩ := readFrom_piece h.reading hincoming hne hlen
  obtain ⟨hsame, hpaused⟩ := processed_piece (hcalm.lines h.reading h.serving) hlast hinbuf hgo
    (processed handle c₁)
  obtain ⟨c₂, hflush, hsame₂, -, hgo₂, hsent⟩ := flush_all handle hpaused
  have hreadable : onReadable handle s.client (readsPiece piece).calls = (c₂, true) := by
    unfold onReadable readsPiece
    dsimp only
    rw [hread]
    dsimp only
    rw [hflush]
    rfl
  have hturn : handleClient handle s.client (readsPiece piece).event (readsPiece piece).calls
      = if c₂.closeAfterFlush ∧ c₂.outSent ≥ c₂.outbuf.length then (c₂, true)
        else (c₂.updateInterest, false) := by
    unfold handleClient
    rw [if_neg (show ¬ (readsPiece piece).event.writable = true from Bool.false_ne_true)]
    dsimp only
    rw [if_pos (show (readsPiece piece).event.readable = true from rfl), hreadable]
    rfl
  have hmore := hsame₂.trans (hsame.trans hrest)
  unfold step
  rw [if_pos ⟨h.opened, hrespects⟩, hturn]
  -- a line of the piece has quit, or the client waits for the next piece
  cases hclosing : c₂.closeAfterFlush with
  | true =>
      rw [if_pos ⟨rfl, Client.unsent_eq_nil.mp hsent⟩]
      exact ⟨_, rfl, hmore, .inl hclosing⟩
  | false =>
      rw [if_neg (by simp)]
      have hsame₃ := onlyBytesSent_updateInterest c₂
      refine ⟨_, rfl, hsame₃.incoming.trans hmore, .inr ⟨rfl, hsame₃.paused.trans hgo₂, ?_, ?_⟩⟩
      · exact hsame₃.closing.trans hclosing
      · exact (unsent_updateInterest c₂).trans hsent

theorem reaches_pieces {s : State σ} (hreach : (system handle session stream).Reachable s)
    (h : Idle s) {pieces : List Bytes} (htame : ∀ p ∈ pieces, LineRules.Tame newline kReadChunk p)
    (hfollows : Follows handle f pieces.flatten s.client) :
    ∃ s', (system handle session stream).Reachable s' ∧ Finished s'
      ∧ (pieces.foldl (rules handle).feed f).state
        = (s'.client.session, s'.client.written ++ s'.client.unsent) := by
  induction pieces generalizing s f with
  | nil =>
      refine ⟨s, hreach, .inr ⟨h.opened, h.reading, hfollows.incoming⟩, ?_⟩
      exact hfollows.state_eq ((ready_reachable hreach).waiting h.opened h.reading)
  | cons piece pieces ih =>
      have hready := ready_reachable hreach
      have hpiece := htame piece (List.mem_cons_self ..)
      obtain ⟨s', hs, hrest, hnext⟩ := step_readsPiece handle hready h hfollows.incoming hpiece
      have hreach' := hreach.tail (a := readsPiece piece) trivial hs
      -- what the reader was given is the piece, for nothing else is missing
      have hfed : Follows handle ((rules handle).feed f piece) pieces.flatten s'.client := by
        rcases reads_step hready hfollows hs with hsame | ⟨p, rest, -, -, heq, hfed⟩
        · have hall := hsame.incoming.symm.trans hrest
          rw [List.flatten_cons, List.append_left_eq_self] at hall
          exact absurd hall hpiece.1
        · obtain rfl : rest = pieces.flatten := hfed.incoming.symm.trans hrest
          obtain rfl := List.append_cancel_right heq
          exact hfed
      rw [List.foldl_cons]
      rcases hnext with hclosing | hidle
      · obtain ⟨hstate, hdone⟩ := hfed.closing hclosing
        refine ⟨s', hreach', .inl hclosing, ?_⟩
        rcases hdone with hstopped | hnil
        · rw [LineRules.feeds_stopped hstopped, hstate]
        · cases pieces with
          | nil => exact hstate
          | cons p ps =>
              have hp := (htame p (by simp)).1
              exact absurd (List.append_eq_nil_iff.mp hnil).1 hp
      · exact ih hreach' hidle (fun p hp => htame p (List.mem_cons_of_mem _ hp)) hfed

theorem yields_pieces (handle : Handler σ) (session : σ) {ps : List Bytes}
    (htame : ∀ p ∈ ps, LineRules.Tame newline kReadChunk p) :
    Yields handle session ps.flatten
      (ps.foldl (rules (recording handle)).feed { state := ((session, []), []) }).state := by
  have hinit : (system (recording handle) (session, []) ps.flatten).Reachable
      { client := { session := (session, []), incoming := ps.flatten } } := .init rfl
  obtain ⟨s, hreach, hfinished, hstate⟩ := reaches_pieces hinit ⟨rfl, rfl, rfl, rfl⟩ htame
    (follows_init (recording handle) (session, []) ps.flatten)
  exact ⟨s, hreach, hfinished, hstate⟩

end EventLoop

/-! ## Both -/

theorem neverBarelyTooLong_iff {chunk : Nat} {yields : Outcome σ → Prop}
    (hsound : ∀ r, yields r → NeverBarelyTooLong chunk handle session stream →
      r = verdict handle session stream)
    (hcomplete : ¬ NeverBarelyTooLong chunk handle session stream →
      ∃ r, yields r ∧ r ≠ verdict handle session stream) :
    NeverBarelyTooLong chunk handle session stream ↔ (∀ r r', yields r → yields r' → r = r')
      ∧ ∀ r, yields r → r = verdict handle session stream := by
  constructor
  · intro hnever
    refine ⟨fun r r' hr hr' => ?_, fun r hr => hsound r hr hnever⟩
    rw [hsound r hr hnever, hsound r' hr' hnever]
  · intro hsame
    by_contra hnot
    obtain ⟨r, hr, hne⟩ := hcomplete hnot
    exact hne (hsame.2 r hr)

/--
**When the pieces do not matter.** A thread that reads at most 4 KiB at a time, and the
event loop that reads at most 16 KiB: whatever the reads return, the lines that are
handed to the session and the replies are always the same, and a line is refused exactly
if it is too long, if and only if the first line that is too long and is reached is
longer than the limit by at least one read.
-/
theorem splitting_iff (handle : Handler σ) (session : σ) (stream : Bytes) :
    (NeverBarelyTooLong Connection.kReadChunk handle session stream ↔
      (∀ r r', Connection.Yields handle session stream r →
        Connection.Yields handle session stream r' → r = r')
      ∧ ∀ r, Connection.Yields handle session stream r → r = verdict handle session stream)
    ∧ (NeverBarelyTooLong EventLoop.kReadChunk handle session stream ↔
      (∀ r r', EventLoop.Yields handle session stream r →
        EventLoop.Yields handle session stream r' → r = r')
      ∧ ∀ r, EventLoop.Yields handle session stream r → r = verdict handle session stream) := by
  constructor
  · refine neverBarelyTooLong_iff (fun r hr => hr.eq_verdict) fun hnot => ?_
    obtain ⟨ps, rfl, htame, hne⟩ := exists_pieces_ne (by decide) hnot
    exact ⟨_, Connection.yields_pieces handle session htame, hne⟩
  · refine neverBarelyTooLong_iff (fun r hr => hr.eq_verdict) fun hnot => ?_
    obtain ⟨ps, rfl, htame, hne⟩ := exists_pieces_ne (by decide) hnot
    exact ⟨_, EventLoop.yields_pieces handle session htame, hne⟩

/-- Two lines and the beginning of a third: there is one thing that can come of them. -/
theorem splitting_iff_lines :
    (∀ r, Connection.Yields EventLoop.echo () (ascii "a\nbc\r\nde") r →
      r = (((), [ascii "a", ascii "bc"]), ascii "a\nbc\n"))
    ∧ ∀ r, EventLoop.Yields EventLoop.echo () (ascii "a\nbc\r\nde") r →
      r = (((), [ascii "a", ascii "bc"]), ascii "a\nbc\n") := by
  have hverdict : verdict EventLoop.echo () (ascii "a\nbc\r\nde")
      = (((), [ascii "a", ascii "bc"]), ascii "a\nbc\n") := by decide +kernel
  obtain ⟨hconnection, heventLoop⟩ := splitting_iff EventLoop.echo () (ascii "a\nbc\r\nde")
  rw [hverdict] at hconnection heventLoop
  exact ⟨(hconnection.mp (by decide +kernel)).2, (heventLoop.mp (by decide +kernel)).2⟩

/-! ## A line of one byte too many -/

/-- A line that is too long by one byte. -/
def overlong : Bytes := List.replicate (kMaxLineLength + 1) 120

/-- As much of it as may wait for the rest, in the largest reads that a thread makes. -/
def front : List Bytes := List.replicate 16 (List.replicate Connection.kReadChunk 120)

theorem flatten_front : front.flatten = List.replicate kMaxLineLength 120 :=
  List.flatten_replicate_replicate

theorem overlong_eq : overlong = front.flatten ++ [120] := by
  rw [flatten_front, overlong, List.replicate_succ']

theorem newline_not_mem (n : Nat) : newline ∉ List.replicate n (120 : UInt8) := by
  intro hmem
  exact absurd (List.eq_of_mem_replicate hmem) (by decide)

theorem tame_front {chunk : Nat} (hchunk : Connection.kReadChunk ≤ chunk) :
    ∀ p ∈ front, LineRules.Tame newline chunk p := by
  intro p hp
  obtain rfl := List.eq_of_mem_replicate hp
  refine ⟨?_, ?_, ?_⟩
  · exact List.ne_nil_of_length_pos (by rw [List.length_replicate]; decide)
  · rw [List.length_replicate]
    exact hchunk
  · rw [List.dropLast_replicate]
    exact newline_not_mem _

theorem chomp_overlong : chomp overlong = overlong := by
  refine if_neg ?_
  rw [overlong_eq, List.getLast?_concat]
  decide

theorem echo_overlong (s : Unit) : EventLoop.echo s overlong
    = { session := (), text := ascii "xxxxxxxx\n", quit := false } := by
  have htake : overlong.take 8 = List.replicate 8 120 := by
    rw [overlong, List.take_replicate, Nat.min_eq_left (by decide)]
  have hquit : overlong ≠ ascii "QUIT" := by
    intro heq
    have hlen := congrArg List.length heq
    rw [overlong, List.length_replicate] at hlen
    exact absurd hlen (by decide)
  unfold EventLoop.echo
  rw [htake, decide_eq_false hquit]
  rfl

/-- The line arrives with a read that ends in front of the newline. -/
def apart : List Bytes := front ++ [[120], [newline]]

/-- The line arrives with its last byte and the newline in one read. -/
def together : List Bytes := front ++ [[120] ++ [newline]]

theorem flatten_apart : apart.flatten = overlong ++ [newline] := by
  rw [overlong_eq, apart, List.flatten_append, List.append_assoc]
  rfl

theorem flatten_together : together.flatten = overlong ++ [newline] := by
  rw [overlong_eq, together, List.flatten_append, List.append_assoc]
  rfl

theorem tame_apart {chunk : Nat} (hchunk : Connection.kReadChunk ≤ chunk) :
    ∀ p ∈ apart, LineRules.Tame newline chunk p := by
  have hone : 0 < chunk := Nat.lt_of_lt_of_le (by decide) hchunk
  intro p hp
  rcases List.mem_append.mp hp with hp | hp
  · exact tame_front hchunk p hp
  · have hp : p ∈ LineRules.singles [120, newline] := hp
    exact LineRules.tame_singles hone p hp

theorem tame_together {chunk : Nat} (hchunk : Connection.kReadChunk ≤ chunk) :
    ∀ p ∈ together, LineRules.Tame newline chunk p := by
  have htwo : 2 ≤ chunk := Nat.le_trans (by decide) hchunk
  intro p hp
  rcases List.mem_append.mp hp with hp | hp
  · exact tame_front hchunk p hp
  · rw [List.mem_singleton.mp hp]
    exact ⟨by simp, htwo, by decide⟩

theorem fed_apart (t : Outcome Unit) :
    (apart.foldl (rules (recording EventLoop.echo)).feed { state := t }).state
      = (t.1, t.2 ++ ascii "-ERR line too long\n") := by
  refine LineRules.feeds_refused ?_ ?_ [[newline]]
  · rw [← overlong_eq]
    exact newline_not_mem _
  · rw [flatten_front, List.length_replicate]
    rfl

theorem fed_together (t : Outcome Unit) :
    (together.foldl (rules (recording EventLoop.echo)).feed { state := t }).state
      = (((), t.1.2 ++ [overlong]), t.2 ++ ascii "xxxxxxxx\n") := by
  have hhand : (rules (recording EventLoop.echo)).hand t overlong
      = ((((), t.1.2 ++ [overlong]), t.2 ++ ascii "xxxxxxxx\n"), false) := by
    rw [hand_recording, chomp_overlong, echo_overlong]
  have hfed := @LineRules.feeds_handed _ _ _ (rules (recording EventLoop.echo)) t [120] front
  rw [← overlong_eq, hhand] at hfed
  rw [together]
  refine congrArg LineReader.state (hfed (newline_not_mem _) ?_)
  rw [flatten_front, List.length_replicate]
  exact Nat.le_refl _

/-- **Refused or handled**: either can come of such a line, in both engines. -/
theorem overlong_either :
    (Connection.Yields EventLoop.echo () (overlong ++ [newline])
        (((), []), ascii "-ERR line too long\n")
      ∧ Connection.Yields EventLoop.echo () (overlong ++ [newline])
        (((), [overlong]), ascii "xxxxxxxx\n"))
    ∧ EventLoop.Yields EventLoop.echo () (overlong ++ [newline])
        (((), []), ascii "-ERR line too long\n")
      ∧ EventLoop.Yields EventLoop.echo () (overlong ++ [newline])
        (((), [overlong]), ascii "xxxxxxxx\n") := by
  have hapart := fed_apart (((), []), [])
  have htogether := fed_together (((), []), [])
  have hle : Connection.kReadChunk ≤ EventLoop.kReadChunk := by decide
  have hconnection := Connection.yields_pieces EventLoop.echo () (tame_apart (Nat.le_refl _))
  have hconnection' := Connection.yields_pieces EventLoop.echo () (tame_together (Nat.le_refl _))
  have heventLoop := EventLoop.yields_pieces EventLoop.echo () (tame_apart hle)
  have heventLoop' := EventLoop.yields_pieces EventLoop.echo () (tame_together hle)
  rw [hapart, flatten_apart] at hconnection heventLoop
  rw [htogether, flatten_together] at hconnection' heventLoop'
  exact ⟨⟨hconnection, hconnection'⟩, heventLoop, heventLoop'⟩

end KvStore.Net
