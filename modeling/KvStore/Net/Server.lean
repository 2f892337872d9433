import KvStore.Net.Loop
import KvStore.Protocol.Session

/-!
# The server

`src/net/server.cpp`: the sessions of the clients belong to one store, and the event loop
calls `Session::handleLine` for every line of any of them. What the rest of the world does
during the lines is a script, of which each line takes the first entry.

Nothing between `Session::handleLine` and `main` catches an exception. So a line that throws
(a `SET` or a `DEL` whose append fails) is the last that the loop handles: `run` is left, and
the process ends. A `COMMIT` whose append fails does not throw, and the loop goes on.
-/

namespace KvStore.Net.Server

open Lib Protocol

variable {cfg : StoreConfig}

/-- What the sessions share. -/
structure Shared (cfg : StoreConfig) where
  store : Store cfg
  /-- What the world is going to do during the next lines. -/
  script : List World
  /-- A line has thrown, and `run` has been left. -/
  threw : Bool := false

/-- A line of a session. Behind an exception there is nobody to handle it. -/
def handleLine (cfg : StoreConfig) : Handler (Shared cfg × Session) := fun s line =>
  if s.1.threw then { session := s, text := [], quit := true }
  else
    let r := s.2.handleLine s.1.store line (s.1.script.headD {})
    match r.reply with
    | .ok text =>
        { session := ({ store := r.store, script := s.1.script.tail }, r.session)
          text := text
          quit := r.quit }
    | .error _ =>
        { session := ({ store := r.store, script := s.1.script.tail, threw := true }, r.session)
          text := []
          quit := true }

/-- The session of a client that goes; an open transaction is rolled back. -/
def destroySession (shared : Shared cfg) (session : Session) : Shared cfg :=
  { shared with store := session.destroy shared.store }

/-- `IoMode::EventLoop`. The turn in which a line throws is the last step there is. -/
def eventLoop (st : Store cfg) (script : List World) :
    System (Loop.State (Shared cfg) Session) Loop.Act where
  init := (Loop.system {} destroySession (handleLine cfg) { store := st, script := script }).init
  step s a :=
    if s.shared.threw then none else Loop.step {} destroySession (handleLine cfg) s a

end KvStore.Net.Server
