import KvStore.Net.Poller

/-!
# The event loop and its clients

`src/net/event_loop.cpp`, all of it: `run` with its rounds, `acceptNew`, `closeClient`. What
a client does in its turn is in `KvStore.Net.EventLoop`. The sessions of the clients share
something, which is the store: a turn is given what is shared as the others have left it.

The kernel is here as far as the loop can see it: the descriptors of the process, what is
sent to each of them, and what the calls come to. `accept` returns a descriptor that is not
in use, and not one that was used before and is not any more: those are used again.

A step is what the loop does between two points at which something else can happen: it
waits, it gives one event its turn, or closes one of the clients that have to be closed.
-/

namespace KvStore.Net.Loop

open Lib
open EventLoop (Client Calls handleClient)

variable {γ τ : Type}

/-- How many clients are accepted before the others have their turn. -/
def kMaxAcceptsPerEvent : Nat := 64

/-- What a call of `accept` comes to, and what comes of the socket. -/
inductive Accepted where
  /-- `EAGAIN`, `EINTR` or `ECONNABORTED`: there is no descriptor. -/
  | nobody
  | failed
  /-- The peer and what it is going to send; whether the socket can be made non-blocking, and
  whether the kernel has room for it in the poller. -/
  | socket (fd : Int) (stream : Bytes) (nonBlocking room : Bool)
  deriving DecidableEq, Repr

/-- Where `run` is. -/
inductive Phase where
  /-- At the head of the loop. -/
  | waiting
  /-- Some of the events of a round are still to be handled; if none, clients are closed. -/
  | serving (events : List ReadyEvent)
  /-- Behind the loop. -/
  | leaving
  deriving DecidableEq, Repr

/-- The loop, and what the kernel has for it. -/
structure State (γ τ : Type) where
  listener : Int
  poller : Poller
  shared : γ
  clients : Finmap fun _ : Int => Client τ := ∅
  pendingClose : List Int := []
  phase : Phase := .waiting
  shuttingDown : Bool := false
  accepted : Nat := 0
  commands : Nat := 0
  shortWrites : Nat := 0
  evictedForBacklog : Nat := 0
  /-- The descriptors from `accept` that have not been closed. -/
  opened : Finset Int := ∅
  /-- What the peer of a descriptor sends in all. -/
  streams : Int → Bytes := fun _ => []
  /-- Ghost: whose descriptor it is, by the number of clients accepted so far; `accepted_` only
  grows, so no two clients have one number. -/
  number : Int → Nat := fun _ => 0
  /-- Ghost: whose descriptors they were when the kernel last reported events. -/
  reported : Int → Nat := fun _ => 0

/-- What the loop does next, with what the calls it makes come to. -/
inductive Act where
  | wait (call : WaitCall)
  | accept (answers : List Accepted)
  | turn (calls : Calls)
  | close
  | shutdown
  /-- `clients_.clear()` has come to a client. -/
  | drop (fd : Int)
  deriving DecidableEq, Repr

/-! ## A turn -/

/-- A client, and beside its session what all sessions share. -/
def lift (shared : γ) (c : Client τ) : Client (γ × τ) := { c with session := (shared, c.session) }

/-- The client without what is shared. -/
def lower (c : Client (γ × τ)) : Client τ := { c with session := c.session.2 }

/-- Of the calls of `updateInterest` in a turn, the poller keeps the last. -/
def tell (p : Poller) (fd : Int) (before after : Bool × Bool) : Poller :=
  if after = before then p else (p.modify fd after.1 after.2).1

/-- The client has had its turn. -/
def State.turned (s : State γ τ) (fd : Int) (c : Client τ) (r : Client (γ × τ) × Bool) :
    State γ τ :=
  { s with
    shared := r.1.session.1
    clients := s.clients.insert fd (lower r.1)
    poller := tell s.poller fd c.registered r.1.registered
    pendingClose := if r.2 then s.pendingClose ++ [fd] else s.pendingClose
    commands := s.commands + (r.1.commands - c.commands)
    shortWrites := s.shortWrites + (r.1.shortWrites - c.shortWrites)
    evictedForBacklog := s.evictedForBacklog + (r.1.evictedForBacklog - c.evictedForBacklog) }

/-! ## Clients that come and go -/

section Sessions

variable (session : τ) (destroy : γ → τ → γ)

theorem nothing_sent : 0 ≤ ([] : Bytes).length := Nat.zero_le _

/-- One round of `acceptNew`, for a socket. One that is not kept is closed on the spot. -/
def State.welcome (s : State γ τ) (fd : Int) (stream : Bytes) (nonBlocking room : Bool) :
    State γ τ :=
  if nonBlocking then
    match s.poller.add room fd true false with
    | (p, false) => { s with poller := p, shared := destroy s.shared session }
    | (p, true) =>
        { s with
          poller := p
          -- `emplace` leaves an entry alone that is there
          clients := if fd ∈ s.clients then s.clients
            else s.clients.insert fd
              { session := session, incoming := stream, sent_le := nothing_sent }
          accepted := s.accepted + 1
          opened := insert fd s.opened
          streams := Function.update s.streams fd stream
          number := Function.update s.number fd (s.accepted + 1) }
  else s

/-- The rounds of `acceptNew`, one for each answer of `accept`. -/
def acceptNew : Nat → State γ τ → List Accepted → Option (State γ τ)
  | 0, s, _ => some s
  | _ + 1, s, [] => some s
  | _ + 1, s, .nobody :: _ => some s
  | _ + 1, s, .failed :: _ => some s
  | n + 1, s, .socket fd stream nonBlocking room :: answers =>
      -- these are in use
      if fd = s.listener ∨ fd ∈ s.opened then none
      else acceptNew n (s.welcome session destroy fd stream nonBlocking room) answers

/-- The client is destroyed: its session, and then its descriptor. -/
def State.destroyed (s : State γ τ) (fd : Int) (c : Client τ) : State γ τ :=
  { s with
    shared := destroy s.shared c.session
    clients := s.clients.erase fd
    opened := s.opened.erase fd }

/-- The poller is told first, so that it has no descriptor that is not open. -/
def closeClient (s : State γ τ) (fd : Int) : State γ τ :=
  match s.clients.lookup fd with
  | none => s
  | some c => { s with poller := (s.poller.remove fd).1 }.destroyed destroy fd c

/-! ## The loop -/

variable (handle : Handler (γ × τ))

/-- `run`, from one point at which it can be told something to the next. -/
def step (s : State γ τ) : Act → Option (State γ τ)
  | .wait call =>
      match s.phase with
      | .waiting =>
          if s.shuttingDown then some { s with phase := .leaving }
          else
            match s.poller.wait call with
            | none => none
            | some (p, ready, events) =>
                if ready < 0 then some { s with poller := p, phase := .leaving }
                else some { s with poller := p, phase := .serving events, reported := s.number }
      | _ => none
  | .accept answers =>
      match s.phase with
      | .serving (event :: events) =>
          if event.fd = s.listener then
            acceptNew session destroy kMaxAcceptsPerEvent
              { s with phase := .serving events } answers
          else none
      | _ => none
  | .turn calls =>
      match s.phase with
      | .serving (event :: events) =>
          if event.fd = s.listener then none
          else
            let s := { s with phase := .serving events }
            match s.clients.lookup event.fd with
            | none => some s
            | some c =>
                some (s.turned event.fd c
                  (handleClient handle (lift s.shared c) event.toReadyEvent calls))
      | _ => none
  | .close =>
      match s.phase, s.pendingClose with
      | .serving [], fd :: fds => some (closeClient destroy { s with pendingClose := fds } fd)
      | .serving [], [] => some { s with phase := .waiting }
      | _, _ => none
  | .shutdown => some { s with shuttingDown := true }
  | .drop fd =>
      match s.phase, s.clients.lookup fd with
      | .leaving, some c => some (s.destroyed destroy fd c)
      | _, _ => none

/-- The constructor; it throws if the listening socket cannot be registered. -/
def start (poller : Poller) (listener : Int) (shared : γ) : Option (State γ τ) :=
  match poller.add true listener true false with
  | (p, true) => some { listener := listener, poller := p, shared := shared }
  | (_, false) => none

/-- A loop with either of the pollers. -/
def system (shared : γ) : System (State γ τ) Act where
  init s := ∃ poller ∈ [Poller.poll {}, Poller.epoll {}], ∃ listener,
    start poller listener shared = some s
  step := step session destroy handle

end Sessions

end KvStore.Net.Loop
