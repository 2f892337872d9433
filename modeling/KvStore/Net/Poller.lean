import KvStore.Net.EventLoop
import Mathlib.Data.Finmap

/-!
# The pollers

`src/net/poller.cpp`. For `PollPoller` the descriptors stand in the vector that `poll` is
given, and an index says where each of them is. `std::unordered_map` is a function, and
a `short` of flags is a word of sixteen bits. What `poll` returns is an argument.

`EpollPoller` leaves the bookkeeping to the kernel, so that there is an interest list of
the kernel here, and counts what it has registered.
-/

namespace KvStore.Net

open Lib

/-- There is something to read. -/
def POLLIN : UInt16 := 0x1

/-- There is room to write. -/
def POLLOUT : UInt16 := 0x4

/-- The socket is in error. -/
def POLLERR : UInt16 := 0x8

/-- The peer has hung up. -/
def POLLHUP : UInt16 := 0x10

/-- The descriptor is not open. -/
def POLLNVAL : UInt16 := 0x20

/-- `struct pollfd`. -/
structure PollFd where
  fd : Int
  events : UInt16 := 0
  revents : UInt16 := 0
  deriving DecidableEq, Repr

/-- An event of the loop, and the descriptor it is about. -/
structure ReadyEvent extends EventLoop.ReadyEvent where
  fd : Int := -1
  deriving DecidableEq, Repr

/-- What a call of `poll` came to: an error, or the flags of every entry in turn. -/
inductive PollCall where
  | interrupted
  | failed
  | returned (revents : List UInt16)
  deriving DecidableEq, Repr

/-- The vector that `poll` is given, and where in it each descriptor is. -/
structure PollPoller where
  fds : List PollFd := []
  index : Int → Option Nat := fun _ => none

namespace PollPoller

/-- What `poll` is asked for. -/
def eventsFor (wantRead wantWrite : Bool) : UInt16 :=
  (if wantRead then POLLIN else 0) ||| (if wantWrite then POLLOUT else 0)

/-- `PollPoller::add`; a descriptor that is there already is refused. -/
def add (p : PollPoller) (fd : Int) (wantRead wantWrite : Bool) : PollPoller × Bool :=
  match p.index fd with
  | some _ => (p, false)
  | none =>
      ({ fds := p.fds ++ [{ fd := fd, events := eventsFor wantRead wantWrite }]
         index := Function.update p.index fd (some p.fds.length) }, true)

/-- `PollPoller::modify`; a descriptor that is not there is refused. -/
def modify (p : PollPoller) (fd : Int) (wantRead wantWrite : Bool) : PollPoller × Bool :=
  match p.index fd with
  | none => (p, false)
  | some slot =>
      ({ p with
          fds := p.fds.modify slot fun entry =>
            { entry with events := eventsFor wantRead wantWrite } }, true)

/-- The entry at the end of the vector goes to the slot, and the index follows it. -/
def moveLast (p : PollPoller) (slot : Nat) : PollPoller :=
  match p.fds[p.fds.length - 1]? with
  | some entry =>
      { fds := p.fds.set slot entry, index := Function.update p.index entry.fd (some slot) }
  | none => p

/-- `PollPoller::remove`; the last entry takes the place of the one that goes. -/
def remove (p : PollPoller) (fd : Int) : PollPoller × Bool :=
  match p.index fd with
  | none => (p, false)
  | some slot =>
      let p := if slot ≠ p.fds.length - 1 then p.moveLast slot else p
      ({ fds := p.fds.dropLast, index := Function.update p.index fd none }, true)

/-- `PollPoller::size`. -/
def size (p : PollPoller) : Nat := p.fds.length

/-! ## Waiting -/

/-- `poll` fills in the flags; an entry that it does not mention has none. -/
def fill : List PollFd → List UInt16 → List PollFd
  | [], _ => []
  | entry :: fds, [] => { entry with revents := 0 } :: fill fds []
  | entry :: fds, flags :: revents => { entry with revents := flags } :: fill fds revents

/-- One entry as an event. -/
def readyEvent (entry : PollFd) : ReadyEvent where
  fd := entry.fd
  readable := entry.revents &&& POLLIN ≠ 0
  writable := entry.revents &&& POLLOUT ≠ 0
  closed := entry.revents &&& (POLLHUP ||| POLLERR ||| POLLNVAL) ≠ 0

/-- What is returned is the number of events, or `-1`. -/
def wait (p : PollPoller) (call : PollCall) : PollPoller × Int × List ReadyEvent :=
  if p.fds = [] then (p, 0, [])
  else
    match call with
    | .interrupted => (p, 0, [])
    | .failed => (p, -1, [])
    | .returned revents =>
        let fds := fill p.fds revents
        -- as many entries as `poll` has counted are not zero
        let out := (fds.filter (·.revents ≠ 0)).map readyEvent
        ({ p with fds := fds }, out.length, out)

end PollPoller

/-! ## The poller of Linux -/

/-- There is something to read. -/
def EPOLLIN : UInt32 := 0x1

/-- There is room to write. -/
def EPOLLOUT : UInt32 := 0x4

/-- The socket is in error. -/
def EPOLLERR : UInt32 := 0x8

/-- Both sides have hung up. -/
def EPOLLHUP : UInt32 := 0x10

/-- The peer writes no more. -/
def EPOLLRDHUP : UInt32 := 0x2000

/-- What a call of `epoll_wait` came to: an error, or descriptors with their flags. -/
inductive EpollCall where
  | interrupted
  | failed
  | returned (events : List (Int × UInt32))
  deriving DecidableEq, Repr

/-- An `epoll` instance, and how many descriptors were added to it. -/
structure EpollPoller where
  /-- The interest list, which is the kernel's. -/
  interest : Int → Option UInt32 := fun _ => none
  registered : Nat := 0

namespace EpollPoller

/-- So many events are taken at a time. -/
def kMaxEventsPerWait : Nat := 1024

/-- What `epoll` is asked for. -/
def eventsFor (wantRead wantWrite : Bool) : UInt32 :=
  (if wantRead then EPOLLIN ||| EPOLLRDHUP else 0) ||| (if wantWrite then EPOLLOUT else 0)

/-- The kernel refuses a descriptor that is in the list; it may also have no room for another. -/
def add (p : EpollPoller) (room : Bool) (fd : Int) (wantRead wantWrite : Bool) :
    EpollPoller × Bool :=
  match p.interest fd, room with
  | none, true =>
      ({ interest := Function.update p.interest fd (some (eventsFor wantRead wantWrite))
         registered := p.registered + 1 }, true)
  | _, _ => (p, false)

/-- `EpollPoller::modify`; the kernel refuses a descriptor that it does not have. -/
def modify (p : EpollPoller) (fd : Int) (wantRead wantWrite : Bool) : EpollPoller × Bool :=
  match p.interest fd with
  | none => (p, false)
  | some _ =>
      ({ p with interest := Function.update p.interest fd (some (eventsFor wantRead wantWrite)) },
        true)

/-- `EpollPoller::remove`; the kernel refuses a descriptor that it does not have. -/
def remove (p : EpollPoller) (fd : Int) : EpollPoller × Bool :=
  match p.interest fd with
  | none => (p, false)
  | some _ =>
      ({ interest := Function.update p.interest fd none, registered := p.registered - 1 }, true)

/-- `EpollPoller::size`. -/
def size (p : EpollPoller) : Nat := p.registered

/-- A peer that has closed its side is read from, so that the end of the input is found. -/
def readyEvent (source : Int × UInt32) : ReadyEvent where
  fd := source.1
  readable := source.2 &&& EPOLLIN ≠ 0 ∨ source.2 &&& EPOLLRDHUP ≠ 0
  writable := source.2 &&& EPOLLOUT ≠ 0
  closed := source.2 &&& (EPOLLHUP ||| EPOLLERR) ≠ 0

/-- `EpollPoller::wait`: what it returns, and the events. -/
def wait (p : EpollPoller) (call : EpollCall) : EpollPoller × Int × List ReadyEvent :=
  match call with
  | .interrupted => (p, 0, [])
  | .failed => (p, -1, [])
  | .returned events => (p, events.length, events.map readyEvent)

end EpollPoller

/-! ## Either of them -/

/-- Either of the two. -/
inductive Poller where
  | poll (p : PollPoller)
  | epoll (p : EpollPoller)

/-- What the system call of `wait` comes to. -/
inductive WaitCall where
  | poll (call : PollCall)
  | epoll (call : EpollCall)
  deriving DecidableEq, Repr

namespace Poller

/-- `Poller::add`; `room` says whether the kernel has room for one more. -/
def add (room : Bool) (fd : Int) (wantRead wantWrite : Bool) : Poller → Poller × Bool
  | .poll p => ((p.add fd wantRead wantWrite).map .poll id)
  | .epoll p => ((p.add room fd wantRead wantWrite).map .epoll id)

/-- `Poller::modify`. -/
def modify (fd : Int) (wantRead wantWrite : Bool) : Poller → Poller × Bool
  | .poll p => ((p.modify fd wantRead wantWrite).map .poll id)
  | .epoll p => ((p.modify fd wantRead wantWrite).map .epoll id)

/-- `Poller::remove`. -/
def remove (fd : Int) : Poller → Poller × Bool
  | .poll p => ((p.remove fd).map .poll id)
  | .epoll p => ((p.remove fd).map .epoll id)

/-- A poller makes the call that is its own. -/
def wait : Poller → WaitCall → Option (Poller × Int × List ReadyEvent)
  | .poll p, .poll call => some ((p.wait call).map .poll id)
  | .epoll p, .epoll call => some ((p.wait call).map .epoll id)
  | _, _ => none

/-- `Poller::size`. -/
def size : Poller → Nat
  | .poll p => p.size
  | .epoll p => p.size

/-- What the kernel is asked for, of a descriptor: input, and room for output. -/
def asked : Poller → Int → Option (Bool × Bool)
  | .poll p, fd =>
      (p.index fd).bind fun slot => p.fds[slot]?.map fun entry =>
        (decide (entry.events &&& POLLIN ≠ 0), decide (entry.events &&& POLLOUT ≠ 0))
  | .epoll p, fd =>
      (p.interest fd).map fun events =>
        (decide (events &&& EPOLLIN ≠ 0), decide (events &&& EPOLLOUT ≠ 0))

end Poller

/-! ## A poller in use -/

namespace Polling

/-- A poller, and what it was told: the interest of the last call for each descriptor that was
successful, so long as the descriptor has not been removed. -/
structure State where
  poller : PollPoller := {}
  told : Finmap fun _ : Int => Bool × Bool := ∅

/-- A call of a poller. -/
inductive Act where
  | add (fd : Int) (wantRead wantWrite : Bool)
  | modify (fd : Int) (wantRead wantWrite : Bool)
  | remove (fd : Int)
  | wait (call : PollCall)
  deriving DecidableEq, Repr

/-- A call that succeeded is remembered. -/
def note (s : State) (r : PollPoller × Bool)
    (told : Finmap fun _ : Int => Bool × Bool) : State :=
  { poller := r.1, told := if r.2 then told else s.told }

/-- A call of a poller. -/
def step (s : State) : Act → Option State
  | .add fd wantRead wantWrite =>
      some (note s (s.poller.add fd wantRead wantWrite) (s.told.insert fd (wantRead, wantWrite)))
  | .modify fd wantRead wantWrite =>
      some (note s (s.poller.modify fd wantRead wantWrite) (s.told.insert fd (wantRead, wantWrite)))
  | .remove fd => some (note s (s.poller.remove fd) (s.told.erase fd))
  | .wait call => some { s with poller := (s.poller.wait call).1 }

/-- A poller from its construction on. -/
def system : System State Act where
  init s := s = {}
  step := step

end Polling

end KvStore.Net
