import KvStore.Lib.Runs
import KvStore.Net.Connection

/-!
# One thread for all connections

`src/net/event_loop.cpp`, as far as it is about one client: what `handleClient` does
with an event. The world is the bytes that the peer sends, what every call of `read`
and `write` comes to, and the events; of the poller there is what it was last told.

A client whose output has been sent further than there is output cannot be built, so
`outbuf.size() - outSent` is a number of bytes and never wraps around.
-/

namespace KvStore.Net

open Lib
open Repl (ascii newline)

variable {σ : Type}

namespace EventLoop

/-- The buffer of one `read`. -/
def kReadChunk : Nat := 16 * 1024

/-- A client that leaves more than that unread is closed. -/
def kMaxOutputBytes : Nat := 8 * 1024 * 1024

/-- Above that the client's input is not read. -/
def kPauseReadingAboveBytes : Nat := 1 * 1024 * 1024

/-- What one call of `read` or `write` came to. -/
inductive Call where
  /-- One byte, and up to `n` more. -/
  | moved (n : Nat)
  | interrupted
  | wouldBlock
  | failed
  deriving DecidableEq, Repr

/-- What a poller reports of one descriptor. -/
structure ReadyEvent where
  readable : Bool := false
  writable : Bool := false
  closed : Bool := false
  deriving DecidableEq, Repr

/-- A client of the event loop. -/
structure Client (σ : Type) where
  session : σ
  inbuf : Bytes := []
  outbuf : Bytes := []
  outSent : Nat := 0
  wantsRead : Bool := true
  wantsWrite : Bool := false
  closeAfterFlush : Bool := false
  readingPaused : Bool := false
  /-- What the poller was last told: to wait for input, and for room for output. -/
  registered : Bool × Bool := (true, false)
  /-- What the peer has sent, or will send, and `read` has not returned. -/
  incoming : Bytes := []
  /-- What `write` has taken. -/
  written : Bytes := []
  /-- What the client has added to the counters of the loop. -/
  commands : Nat := 0
  shortWrites : Nat := 0
  evictedForBacklog : Nat := 0
  sent_le : outSent ≤ outbuf.length := by simp

namespace Client

/-- Output that has not been sent. -/
def unsent (c : Client σ) : Bytes := c.outbuf.drop c.outSent

/-- `outbuf += text`. -/
def push (c : Client σ) (text : Bytes) : Client σ :=
  { c with
    outbuf := c.outbuf ++ text
    sent_le := by
      rw [List.length_append]
      exact Nat.le_add_right_of_le c.sent_le }

/-- `write` took up to `n` bytes. -/
def sent (c : Client σ) (n : Nat) : Client σ :=
  { c with
    outSent := c.outSent + min n (c.outbuf.length - c.outSent)
    written := c.written ++ c.unsent.take n
    sent_le := by
      have := c.sent_le
      omega }

/-- The poller is told when it should ask for something else than before. -/
def updateInterest (c : Client σ) : Client σ :=
  let wantWrite := decide (c.outSent < c.outbuf.length)
  let wantRead := !c.readingPaused
  if wantWrite = c.wantsWrite ∧ wantRead = c.wantsRead then c
  else
    { c with
      wantsWrite := wantWrite
      wantsRead := wantRead
      registered := (wantRead, wantWrite) }

/-! ## Input -/

/-- Whether the peer has closed its side, and whether the connection still works. -/
def readFrom (c : Client σ) : List Call → Client σ × Bool × Bool
  | [] => (c, false, true)
  | call :: calls =>
      if c.readingPaused then (c, false, true)
      else
        match call with
        | .interrupted => readFrom c calls
        | .wouldBlock => (c, false, true)
        | .failed => (c, false, false)
        | .moved n =>
            let chunk := c.incoming.take (min (n + 1) kReadChunk)
            -- a read of nothing is the end of the input
            if chunk = [] then (c, true, true)
            else
              ({ c with
                  inbuf := c.inbuf ++ chunk
                  incoming := c.incoming.drop chunk.length }, false, true)

/-- One line has been handled. -/
def handled (c : Client σ) (r : Reply σ) (rest : Bytes) : Client σ :=
  { c.push r.text with session := r.session, inbuf := rest, commands := c.commands + 1 }

/-- The loop of `processInput`; each round takes a line off the input. -/
def processLoop (handle : Handler σ) : Nat → Client σ → Client σ
  | 0, c => c
  | fuel + 1, c =>
      if c.closeAfterFlush then c
      else
        match cutLine newline c.inbuf with
        | none =>
            if c.inbuf.length > kMaxLineLength then
              { c.push (ascii "-ERR line too long\n") with closeAfterFlush := true }
            else c
        | some (line, rest) =>
            let r := handle c.session (chomp line)
            let c := c.handled r rest
            if r.quit then { c with closeAfterFlush := true }
            else if c.outbuf.length - c.outSent > kPauseReadingAboveBytes then
              { c with readingPaused := true }
            else processLoop handle fuel c

/-- The lines that are in the input buffer. -/
def processInput (handle : Handler σ) (c : Client σ) : Client σ :=
  processLoop handle (c.inbuf.length + 1) c

/-! ## Output -/

/-- The loop of `flush`; `false` for an error. A call beyond the script takes everything. -/
def writeLoop (c : Client σ) : List Call → Client σ × Bool
  | [] => (c.sent c.outbuf.length, true)
  | call :: calls =>
      if c.outSent < c.outbuf.length then
        match call with
        | .interrupted => writeLoop c calls
        | .wouldBlock => ({ c with shortWrites := c.shortWrites + 1 }, true)
        | .failed => (c, false)
        | .moved n => writeLoop (c.sent (n + 1)) calls
      else (c, true)

/-- Behind the loop: an empty buffer wakes up a client that was paused, a half empty one is
moved. -/
def afterWrites (handle : Handler σ) (c : Client σ) : Client σ :=
  if c.outSent ≥ c.outbuf.length then
    let c := { c with outbuf := [], outSent := 0, sent_le := Nat.zero_le _ }
    if c.readingPaused then processInput handle { c with readingPaused := false } else c
  else if c.outSent > 0 ∧ c.outSent > c.outbuf.length / 2 then
    { c with outbuf := c.unsent, outSent := 0, sent_le := Nat.zero_le _ }
  else c

/-- The output, as far as the socket takes it; `false` when the client is to be closed. -/
def flush (handle : Handler σ) (c : Client σ) (calls : List Call) : Client σ × Bool :=
  match c.writeLoop calls with
  | (c, false) => (c, false)
  | (c, true) =>
      let c := c.afterWrites handle
      if c.outbuf.length - c.outSent > kMaxOutputBytes then
        ({ c with evictedForBacklog := c.evictedForBacklog + 1 }, false)
      else (c.updateInterest, true)

end Client

/-! ## Events -/

/-- What the calls made for one event come to. -/
structure Calls where
  /-- Of the flush for a writable socket. -/
  writes : List Call := []
  reads : List Call := []
  /-- Of the flush behind the input. -/
  writesAfter : List Call := []
  deriving DecidableEq, Repr

/-- The branch of `handleClient` for a readable socket; `false` for an error. -/
def onReadable (handle : Handler σ) (c : Client σ) (calls : Calls) : Client σ × Bool :=
  match c.readFrom calls.reads with
  | (c, _, false) => (c, false)
  | (c, peerClosed, true) =>
      match (c.processInput handle).flush handle calls.writesAfter with
      | (c, false) => (c, false)
      | (c, true) =>
          (if peerClosed then { c with closeAfterFlush := true, readingPaused := true } else c,
            true)

/-- The client afterwards, and whether it is to be closed. -/
def handleClient (handle : Handler σ) (c : Client σ) (event : ReadyEvent) (calls : Calls) :
    Client σ × Bool :=
  match if event.writable then c.flush handle calls.writes else (c, true) with
  | (c, false) => (c, true)
  | (c, true) =>
      match if event.readable then onReadable handle c calls else (c, true) with
      | (c, false) => (c, true)
      | (c, true) =>
          if event.closed ∧ ¬ event.readable then (c, true)
          else if c.closeAfterFlush ∧ c.outSent ≥ c.outbuf.length then (c, true)
          else (c.updateInterest, false)

/-- One client, and whether it was closed. -/
structure State (σ : Type) where
  client : Client σ
  closed : Bool := false

/-- An event, and what the system calls behind it come to. -/
structure Act where
  event : ReadyEvent
  calls : Calls := {}
  deriving DecidableEq, Repr

/-- The poller reports what it was asked for; that a peer is gone it reports unasked. -/
def Respects (event : ReadyEvent) (registered : Bool × Bool) : Prop :=
  (event.readable = true → registered.1 = true) ∧ (event.writable = true → registered.2 = true)

instance (event : ReadyEvent) (registered : Bool × Bool) : Decidable (Respects event registered) :=
  inferInstanceAs (Decidable (_ ∧ _))

/-- An event that the poller can report is handled. -/
def step (handle : Handler σ) (s : State σ) (a : Act) : Option (State σ) :=
  if s.closed = false ∧ Respects a.event s.client.registered then
    let r := handleClient handle s.client a.event a.calls
    some { client := r.1, closed := r.2 }
  else none

/-- A client that was just accepted, and the stream it is going to send. -/
def system (handle : Handler σ) (session : σ) (stream : Bytes) : System (State σ) Act where
  init s := s = { client := { session := session, incoming := stream } }
  step := step handle

end EventLoop

end KvStore.Net
