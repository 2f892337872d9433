import KvStore.Lib.LineReader
import KvStore.Repl.Control
import KvStore.Wal.WriteAheadLog

/-!
# One thread for one connection

`src/net/connection.cpp`. What a session makes of a line is an argument here, as it is
in the event loop: the two engines are about bytes, not about commands.

The world is a script again. For every response it has what the calls of `write`
returned, and for every time that `run` has no line left, what it finds then.
-/

namespace KvStore.Net

open Lib Wal
open Repl (ascii newline)

variable {σ : Type}

/-- What `handleLine` leaves and returns. -/
structure Reply (σ : Type) where
  session : σ
  text : Bytes
  quit : Bool := false
  deriving DecidableEq, Repr

/-- What becomes of a session, and what it answers, for a line. -/
abbrev Handler (σ : Type) := σ → Bytes → Reply σ

/-- What is kept of a line may be that long. -/
def kMaxLineLength : Nat := 64 * 1024

/-- The line without the carriage return it may end in. -/
def chomp (line : Bytes) : Bytes := if line.getLast? = some 13 then line.dropLast else line

/-- What `run` finds when it has run out of lines. -/
inductive Turn where
  | shuttingDown
  | data (bytes : Bytes)
  | timeout
  | closed
  | error
  deriving DecidableEq, Repr

/-- A client of the thread pool, and what the server has of it. -/
structure Connection (σ : Type) where
  session : σ
  inbuf : Bytes := []
  /-- What the socket has taken. -/
  written : Bytes := []

namespace Connection

/-- The same loop as that of the log, on a socket. -/
def writeAll (c : Connection σ) (ws : List SysWrite) (data : Bytes) : Connection σ × Bool :=
  let r := Wal.writeAll ws c.written data
  ({ c with written := r.1 }, r.2)

/-- The inner loop of `run`: every line there is. `false` when `run` returns from it. -/
def serveLines (handle : Handler σ) : Nat → Connection σ → List (List SysWrite) →
    Connection σ × List (List SysWrite) × Bool
  | 0, c, ws => (c, ws, true)
  | fuel + 1, c, ws =>
      match cutLine newline c.inbuf with
      | none => (c, ws, true)
      | some (line, rest) =>
          let r := handle c.session (chomp line)
          match writeAll { c with session := r.session, inbuf := rest } (ws.headD []) r.text with
          | (c, false) => (c, ws.tail, false)
          | (c, true) => if r.quit then (c, ws.tail, false) else serveLines handle fuel c ws.tail

/-- The loop of a connection, for what `read` returns and `write` takes. -/
def run (handle : Handler σ) (c : Connection σ) (ws : List (List SysWrite)) (turns : List Turn) :
    Connection σ :=
  match serveLines handle (c.inbuf.length + 1) c ws with
  | (c, _, false) => c
  | (c, ws, true) =>
      if c.inbuf.length > kMaxLineLength then
        (c.writeAll (ws.headD []) (ascii "-ERR line too long\n")).1
      else
        match turns with
        | [] => c
        | .shuttingDown :: _ => (c.writeAll (ws.headD []) (ascii "-ERR server shutting down\n")).1
        | .data bytes :: turns => run handle { c with inbuf := c.inbuf ++ bytes } ws turns
        | .timeout :: turns => run handle c ws turns
        | .closed :: _ => c
        | .error :: _ => c

end Connection

/-! ## What a connection is for -/

/-- The replies to a list of lines, up to and including the one that quits. -/
def replies (handle : Handler σ) : σ → List Bytes → Bytes
  | _, [] => []
  | s, line :: lines =>
      let r := handle s (chomp line)
      r.text ++ if r.quit then [] else replies handle r.session lines

/-- The replies to all lines of a stream. -/
def answer (handle : Handler σ) (s : σ) (stream : Bytes) : Bytes :=
  replies handle s (splitLines newline stream).1

theorem answer_of_none (handle : Handler σ) (s : σ) {stream : Bytes}
    (h : cutLine newline stream = none) : answer handle s stream = [] := by
  rw [answer, splitLines_of_cutLine_none h]
  rfl

theorem answer_of_cutLine (handle : Handler σ) (s : σ) {stream line rest : Bytes}
    (h : cutLine newline stream = some (line, rest)) :
    answer handle s stream = (handle s (chomp line)).text
      ++ if (handle s (chomp line)).quit then []
        else answer handle (handle s (chomp line)).session rest := by
  rw [answer, splitLines_of_cutLine h]
  rfl

/-- An engine as a reader of lines: it has a session, and has said something to the peer. -/
def rules (handle : Handler σ) : LineRules (σ × Bytes) UInt8 where
  sep := newline
  limit := kMaxLineLength
  hand s line :=
    let r := handle s.1 (chomp line)
    ((r.session, s.2 ++ r.text), r.quit)
  refuse s := (s.1, s.2 ++ ascii "-ERR line too long\n")

/-- Without lines that are too long there is nothing but replies. -/
theorem verdict_of_shortLines (handle : Handler σ) (s : σ) (out : Bytes) {stream : Bytes}
    (hshort : ShortLines newline kMaxLineLength stream) :
    ((rules handle).verdict (s, out) stream).2 = out ++ answer handle s stream := by
  induction stream using lineInduction newline generalizing s out with
  | rest stream hnone =>
      have hlen : stream.length ≤ kMaxLineLength := hshort.rest_le hnone
      have hverdict : (rules handle).verdict (s, out) stream = (s, out) :=
        LineRules.verdict_short hnone hlen
      rw [hverdict, answer_of_none handle s hnone, List.append_nil]
  | line stream line rest hcut ih =>
      have hverdict := LineRules.verdict_line (R := rules handle) (t := (s, out)) hcut
        (hshort.line_le hcut)
      rw [hverdict, answer_of_cutLine handle s hcut, ← List.append_assoc]
      by_cases hquit : (handle s (chomp line)).quit = true
      · rw [if_pos hquit, List.append_nil]
        exact congrArg Prod.snd (if_pos hquit)
      · rw [if_neg hquit, ← ih _ _ (hshort.rest hcut)]
        exact congrArg Prod.snd (if_neg hquit)

namespace Connection

/-- The size of the buffer that `readMore` reads into. -/
def kReadChunk : Nat := 4096

/-- The pieces that arrive before the peer closes its side. -/
def pieces : List Turn → List Bytes
  | .data bytes :: turns => bytes :: pieces turns
  | .timeout :: turns => pieces turns
  | _ => []

/-- The bytes that arrive before the peer closes its side. -/
def arriving : List Turn → Bytes
  | .data bytes :: turns => bytes ++ arriving turns
  | .timeout :: turns => arriving turns
  | _ => []

theorem flatten_pieces (turns : List Turn) : (pieces turns).flatten = arriving turns := by
  fun_induction pieces turns with
  | case1 bytes turns ih => rw [List.flatten_cons, ih, arriving]
  | case2 turns ih => rw [ih, arriving]
  | case3 turns hdata htimeout =>
      unfold arriving
      split
      · exact absurd rfl (hdata _ _)
      · exact absurd rfl (htimeout _)
      · rfl

section Run

variable {handle : Handler σ} {c : Connection σ} {ws : List (List SysWrite)}

theorem writeAll_clean (c : Connection σ) (h : ∀ w ∈ ws, .failed ∉ w) (data : Bytes) :
    c.writeAll (ws.headD []) data = ({ c with written := c.written ++ data }, true) := by
  have hhead : SysWrite.failed ∉ ws.headD [] := by
    cases ws with
    | nil => simp
    | cons w ws => exact h w (List.mem_cons_self ..)
  rw [writeAll, Wal.writeAll_clean hhead]

/-- The lines have been handed over; what is left is for the reader to look at. -/
structure Served (handle : Handler σ) (c : Connection σ)
    (r : Connection σ × List (List SysWrite) × Bool) : Prop where
  scripts : ∀ w ∈ r.2.1, .failed ∉ w
  returned : r.2.2 = false → (rules handle).serve (c.session, c.written) c.inbuf
    = { state := (r.1.session, r.1.written), stopped := true }
  waiting : r.2.2 = true → cutLine newline r.1.inbuf = none
    ∧ (rules handle).serve (c.session, c.written) c.inbuf
      = (rules handle).serve (r.1.session, r.1.written) r.1.inbuf

theorem served (hws : ∀ w ∈ ws, .failed ∉ w) {fuel : Nat} (hfuel : c.inbuf.length < fuel) :
    Served handle c (serveLines handle fuel c ws) := by
  induction fuel generalizing c ws with
  | zero => exact absurd hfuel (Nat.not_lt_zero _)
  | succ fuel ih =>
      have htail : ∀ w ∈ ws.tail, SysWrite.failed ∉ w := fun w hw => hws w (List.mem_of_mem_tail hw)
      rw [serveLines]
      split
      · rename_i hnone
        exact ⟨hws, by simp, fun _ => ⟨hnone, rfl⟩⟩
      · rename_i line rest hcut
        have hserve :=
          LineRules.serve_of_cutLine (R := rules handle) (t := (c.session, c.written)) hcut
        dsimp only
        rw [writeAll_clean _ hws]
        dsimp only
        split
        · rename_i hquit
          exact ⟨htail, fun _ => hserve.trans (if_pos hquit), by simp⟩
        · rename_i hgoon
          have hlen := length_of_cutLine hcut
          obtain ⟨hscripts, hreturned, hwaiting⟩ := ih htail
            (c := { session := (handle c.session (chomp line)).session, inbuf := rest,
                    written := c.written ++ (handle c.session (chomp line)).text })
            (show rest.length < fuel by omega)
          have hsame := hserve.trans (if_neg hgoon)
          exact ⟨hscripts, fun h => hsame.trans (hreturned h),
            fun h => ⟨(hwaiting h).1, hsame.trans (hwaiting h).2⟩⟩

/-- **A connection is a reader of lines**, if the peer takes what it is sent. -/
theorem run_feeds (hws : ∀ w ∈ ws, .failed ∉ w) {turns : List Turn}
    (hturns : ∀ t ∈ turns, t ≠ .shuttingDown ∧ t ≠ .error) :
    ((run handle c ws turns).session, (run handle c ws turns).written)
      = ((pieces turns).foldl (rules handle).feed
          ((rules handle).serve (c.session, c.written) c.inbuf)).state := by
  have hserved (c : Connection σ) {ws : List (List SysWrite)} (hws : ∀ w ∈ ws, .failed ∉ w) :
      Served handle c (serveLines handle (c.inbuf.length + 1) c ws) :=
    served hws (Nat.lt_succ_self _)
  have hkept {c c' : Connection σ} {ws' : List (List SysWrite)}
    (h : Served handle c (c', ws', true))
      (hlen : ¬ c'.inbuf.length > kMaxLineLength) :
      (rules handle).serve (c.session, c.written) c.inbuf
        = { state := (c'.session, c'.written), rest := c'.inbuf } := by
    obtain ⟨hnone, hserve⟩ := h.waiting rfl
    exact hserve.trans (LineRules.serve_short hnone (Nat.not_lt.mp hlen))
  fun_induction run handle c ws turns with
  | case1 turns c ws c' ws' heq =>
      have h := heq ▸ hserved c hws
      rw [h.returned rfl, LineRules.feeds_stopped rfl]
  -- the refusal is written before the connection ends
  | case2 turns c ws c' ws' heq hlong =>
      have h := heq ▸ hserved c hws
      obtain ⟨hnone, hserve⟩ := h.waiting rfl
      rw [hserve, LineRules.serve_long hnone hlong, LineRules.feeds_stopped rfl,
        writeAll_clean _ h.scripts]
      rfl
  | case3 c ws c' ws' heq hlong =>
      rw [hkept (heq ▸ hserved c hws) hlong]
      rfl
  | case4 c ws c' ws' heq hlong turns => exact absurd rfl (hturns _ (List.mem_cons_self ..)).1
  -- more input: the reader is fed the same piece
  | case5 c ws c' ws' heq hlong bytes turns ih =>
      have h := heq ▸ hserved c hws
      rw [hkept h hlong, pieces, List.foldl_cons]
      exact ih h.scripts fun t ht => hturns t (List.mem_cons_of_mem _ ht)
  -- a timeout of `poll`: nothing has come
  | case6 c ws c' ws' heq hlong turns ih =>
      have h := heq ▸ hserved c hws
      rw [(h.waiting rfl).2, pieces]
      exact ih h.scripts fun t ht => hturns t (List.mem_cons_of_mem _ ht)
  | case7 c ws c' ws' heq hlong turns =>
      rw [hkept (heq ▸ hserved c hws) hlong]
      rfl
  | case8 c ws c' ws' heq hlong turns => exact absurd rfl (hturns _ (List.mem_cons_self ..)).2

/--
**A connection answers its lines**: whatever pieces the stream arrives in, if no line is
too long and the peer takes what it is sent.
-/
theorem run_written (hws : ∀ w ∈ ws, .failed ∉ w) {turns : List Turn}
    (hturns : ∀ t ∈ turns, t ≠ .shuttingDown ∧ t ≠ .error)
    (hshort : ShortLines newline kMaxLineLength (c.inbuf ++ arriving turns)) :
    (run handle c ws turns).written
      = c.written ++ answer handle c.session (c.inbuf ++ arriving turns) := by
  rw [← flatten_pieces] at hshort ⊢
  rw [← verdict_of_shortLines handle c.session c.written hshort]
  -- nothing is too long, so that the pieces may have any size
  have htrack : (rules handle).OnTrack (c.inbuf ++ (pieces turns).flatten).length _ _ _ :=
    LineRules.onTrack_serve (t := (c.session, c.written)) (by rw [List.length_append]; omega)
      (LineRules.neverBarelyTooLong_of_shortLines hshort)
  have hlen : ∀ piece ∈ pieces turns,
      piece.length ≤ (c.inbuf ++ (pieces turns).flatten).length := by
    intro piece hpiece
    have hle := (List.sublist_flatten_of_mem hpiece).length_le
    rw [List.length_append]
    omega
  exact congrArg Prod.snd ((run_feeds hws hturns).trans (htrack.feeds_all hlen))

end Run

end Connection

end KvStore.Net
