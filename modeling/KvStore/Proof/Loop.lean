import KvStore.Net.Loop
import KvStore.Proof.Clients
import KvStore.Proof.Polling

/-!
# Every event finds its client

Between the moment at which the poller reports an event and the moment at which the loop
comes to it, other clients have had their turns, and new ones have come. What the loop has
of the client by then is its descriptor, and the kernel gives the descriptor of a client
that was closed to the next one that comes.

So no client is closed before all events of the round have been handled. Then the event is
about the client that it was reported for, which is as it was then and wants what was
reported. And between the rounds there is nothing that the tables of the loop, of the
poller and of the kernel disagree about.
-/

namespace KvStore.Net

open Lib
open EventLoop (Respects)

/-! ## What a poller is, for the loop -/

namespace EpollPoller

variable {p : EpollPoller} {told : Finmap fun _ : Int => Bool × Bool}

/-- The interest list is what the poller was told. -/
structure Holds (p : EpollPoller) (told : Finmap fun _ : Int => Bool × Bool) : Prop where
  interest : ∀ fd, p.interest fd = (told.lookup fd).map fun want => eventsFor want.1 want.2
  registered : p.registered = told.keys.card

theorem Holds.update (h : p.Holds told) (fd : Int) (want : Bool × Bool) (fd' : Int) :
    Function.update p.interest fd (some (eventsFor want.1 want.2)) fd'
      = ((told.insert fd want).lookup fd').map fun want => eventsFor want.1 want.2 := by
  by_cases hfd : fd' = fd
  · subst hfd
    rw [Function.update_self, Finmap.lookup_insert]
    rfl
  · rw [Function.update_of_ne hfd, Finmap.lookup_insert_of_ne _ hfd, h.interest]

theorem keys_insert {β : Type} (told : Finmap fun _ : Int => β) (fd : Int) (want : β) :
    (told.insert fd want).keys = insert fd told.keys := by
  ext fd'
  rw [Finmap.mem_keys, Finmap.mem_insert, Finset.mem_insert, Finmap.mem_keys]

theorem Holds.none_iff (h : p.Holds told) (fd : Int) : p.interest fd = none ↔ fd ∉ told := by
  rw [h.interest, Option.map_eq_none_iff, Finmap.lookup_eq_none]

theorem Holds.add (h : p.Holds told) {fd : Int} (hfd : fd ∉ told) (r w : Bool) :
    ∃ p', p.add true fd r w = (p', true) ∧ p'.Holds (told.insert fd (r, w)) := by
  unfold EpollPoller.add
  rw [(h.none_iff fd).mpr hfd]
  refine ⟨_, rfl, h.update fd (r, w), ?_⟩
  rw [keys_insert, Finset.card_insert_of_notMem (by rwa [Finmap.mem_keys]), h.registered]

theorem Holds.modify (h : p.Holds told) {fd : Int} (hfd : fd ∈ told) (r w : Bool) :
    ∃ p', p.modify fd r w = (p', true) ∧ p'.Holds (told.insert fd (r, w)) := by
  obtain ⟨events, hevents⟩ := Option.ne_none_iff_exists'.mp
    (fun hnone => (h.none_iff fd).mp hnone hfd)
  rw [EpollPoller.modify, hevents]
  refine ⟨_, rfl, h.update fd (r, w), ?_⟩
  rw [keys_insert, Finset.insert_eq_of_mem (Finmap.mem_keys.mpr hfd), h.registered]

theorem Holds.remove (h : p.Holds told) {fd : Int} (hfd : fd ∈ told) :
    ∃ p', p.remove fd = (p', true) ∧ p'.Holds (told.erase fd) := by
  obtain ⟨events, hevents⟩ := Option.ne_none_iff_exists'.mp
    (fun hnone => (h.none_iff fd).mp hnone hfd)
  rw [EpollPoller.remove, hevents]
  refine ⟨_, rfl, fun fd' => ?_, ?_⟩
  · dsimp only
    by_cases hne : fd' = fd
    · subst hne
      rw [Function.update_self, Finmap.lookup_erase]
      rfl
    · rw [Function.update_of_ne hne, Finmap.lookup_erase_ne hne, h.interest]
  · rw [Finmap.keys_erase, Finset.card_erase_of_mem (Finmap.mem_keys.mpr hfd), h.registered]

/-- `epoll_wait` reports a descriptor once, what it was asked for, and errors unasked. -/
def Contract (p : EpollPoller) : EpollCall → Prop
  | .returned events =>
      events.length ≤ kMaxEventsPerWait ∧ (events.map Prod.fst).Nodup
        ∧ ∀ source ∈ events, ∃ asked ∈ p.interest source.1,
          (source.2 &&& EPOLLIN ≠ 0 → asked &&& EPOLLIN ≠ 0)
            ∧ (source.2 &&& EPOLLRDHUP ≠ 0 → asked &&& EPOLLRDHUP ≠ 0)
            ∧ (source.2 &&& EPOLLOUT ≠ 0 → asked &&& EPOLLOUT ≠ 0)
  | _ => True

instance (p : EpollPoller) : (call : EpollCall) → Decidable (p.Contract call)
  | .returned events => inferInstanceAs (Decidable (events.length ≤ kMaxEventsPerWait
      ∧ (events.map Prod.fst).Nodup ∧ ∀ source ∈ events, ∃ asked ∈ p.interest source.1,
        (source.2 &&& EPOLLIN ≠ 0 → asked &&& EPOLLIN ≠ 0)
          ∧ (source.2 &&& EPOLLRDHUP ≠ 0 → asked &&& EPOLLRDHUP ≠ 0)
          ∧ (source.2 &&& EPOLLOUT ≠ 0 → asked &&& EPOLLOUT ≠ 0)))
  | .interrupted => inferInstanceAs (Decidable True)
  | .failed => inferInstanceAs (Decidable True)

theorem eventsFor_in (r w : Bool) : eventsFor r w &&& EPOLLIN ≠ 0 ↔ r = true := by
  cases r <;> cases w <;> decide

theorem eventsFor_hup (r w : Bool) : eventsFor r w &&& EPOLLRDHUP ≠ 0 ↔ r = true := by
  cases r <;> cases w <;> decide

theorem eventsFor_out (r w : Bool) : eventsFor r w &&& EPOLLOUT ≠ 0 ↔ w = true := by
  cases r <;> cases w <;> decide

theorem Holds.respects (h : p.Holds told) {call : EpollCall} (hcall : p.Contract call)
    {event : ReadyEvent} (he : event ∈ (p.wait call).2.2) :
    ∃ want, told.lookup event.fd = some want ∧ Respects event.toReadyEvent want := by
  cases call with
  | interrupted => exact absurd he List.not_mem_nil
  | failed => exact absurd he List.not_mem_nil
  | returned events =>
      obtain ⟨source, hsource, rfl⟩ := List.mem_map.mp he
      obtain ⟨asked, hasked, hin, hhup, hout⟩ := hcall.2.2 source hsource
      rw [h.interest] at hasked
      obtain ⟨want, hwant, rfl⟩ := Option.map_eq_some_iff.mp hasked
      refine ⟨want, hwant, fun hread => ?_, fun hwrite => ?_⟩
      -- the peer is gone, or there is input; both were asked for by the same flag
      · rcases of_decide_eq_true hread with hread | hread
        · exact (eventsFor_in _ _).mp (hin hread)
        · exact (eventsFor_hup _ _).mp (hhup hread)
      · exact (eventsFor_out _ _).mp (hout (of_decide_eq_true hwrite))

end EpollPoller

namespace Poller

variable {p : Poller} {told : Finmap fun _ : Int => Bool × Bool}

/-- What the poller was told, whichever it is. -/
def Holds : Poller → (Finmap fun _ : Int => Bool × Bool) → Prop
  | .poll p, told => Polling.Registers { poller := p, told := told }
  | .epoll p, told => p.Holds told

/-- What the kernel does when the poller waits. -/
def Contract : Poller → WaitCall → Prop
  | .poll p, .poll call => ∀ entry ∈ (p.wait call).1.fds, Polling.Contract entry
  | .epoll p, .epoll call => p.Contract call
  | _, _ => True

instance (entry : PollFd) : Decidable (Polling.Contract entry) :=
  inferInstanceAs (Decidable ((entry.revents &&& POLLIN ≠ 0 → entry.events &&& POLLIN ≠ 0)
    ∧ (entry.revents &&& POLLOUT ≠ 0 → entry.events &&& POLLOUT ≠ 0)))

instance : (p : Poller) → (call : WaitCall) → Decidable (p.Contract call)
  | .poll p, .poll call => inferInstanceAs
      (Decidable (∀ entry ∈ (p.wait call).1.fds, Polling.Contract entry))
  | .epoll p, .epoll call => inferInstanceAs (Decidable (p.Contract call))
  | .poll _, .epoll _ => inferInstanceAs (Decidable True)
  | .epoll _, .poll _ => inferInstanceAs (Decidable True)

theorem holds_poll : Holds (.poll {}) ∅ :=
  ⟨Indexes.nil, fun _ => iff_of_false Finmap.notMem_empty List.not_mem_nil, by simp⟩

theorem holds_epoll : Holds (.epoll {}) ∅ :=
  ⟨fun fd => by rw [Finmap.lookup_empty]; rfl, by rw [Finmap.keys_empty]; rfl⟩

theorem Holds.add (h : p.Holds told) {fd : Int} (hfd : fd ∉ told) (room r w : Bool) :
    p.add room fd r w = (p, false)
      ∨ ∃ p', p.add room fd r w = (p', true) ∧ p'.Holds (told.insert fd (r, w)) := by
  cases p with
  | poll p =>
      have hnext := Polling.registers_add h hfd r w
      rw [Poller.add, PollPoller.add_succeeds (h.index_none hfd)]
      rw [PollPoller.add_succeeds (h.index_none hfd)] at hnext
      exact .inr ⟨_, rfl, hnext⟩
  | epoll p =>
      cases room with
      | true =>
          obtain ⟨p', hp', hnext⟩ := EpollPoller.Holds.add h hfd r w
          rw [Poller.add, hp']
          exact .inr ⟨_, rfl, hnext⟩
      | false =>
          refine .inl ?_
          rw [Poller.add]
          unfold EpollPoller.add
          cases p.interest fd <;> rfl

theorem Holds.modify (h : p.Holds told) {fd : Int} (hfd : fd ∈ told) (r w : Bool) :
    ∃ p', p.modify fd r w = (p', true) ∧ p'.Holds (told.insert fd (r, w)) := by
  cases p with
  | poll p =>
      obtain ⟨slot, hslot⟩ := Polling.Registers.index_some h hfd
      have hnext := Polling.registers_modify h hfd r w
      rw [Poller.modify, PollPoller.modify_succeeds hslot]
      rw [PollPoller.modify_succeeds hslot] at hnext
      exact ⟨_, rfl, hnext⟩
  | epoll p =>
      obtain ⟨p', hp', hnext⟩ := EpollPoller.Holds.modify h hfd r w
      rw [Poller.modify, hp']
      exact ⟨_, rfl, hnext⟩

theorem Holds.remove (h : p.Holds told) {fd : Int} (hfd : fd ∈ told) :
    ∃ p', p.remove fd = (p', true) ∧ p'.Holds (told.erase fd) := by
  cases p with
  | poll p =>
      obtain ⟨slot, hslot⟩ := Polling.Registers.index_some h hfd
      obtain ⟨last, -, hremove⟩ := PollPoller.remove_succeeds h.indexed hslot
      have hnext := Polling.registers_remove h hfd
      rw [Poller.remove, hremove]
      rw [hremove] at hnext
      exact ⟨_, rfl, hnext⟩
  | epoll p =>
      obtain ⟨p', hp', hnext⟩ := EpollPoller.Holds.remove h hfd
      rw [Poller.remove, hp']
      exact ⟨_, rfl, hnext⟩

theorem Holds.size (h : p.Holds told) : p.size = told.keys.card := by
  cases p with
  | poll p =>
      -- no descriptor is there twice, so entries are counted like descriptors
      have hkeys : told.keys = (p.fds.map PollFd.fd).toFinset := by
        ext fd
        rw [Finmap.mem_keys, h.told, List.mem_toFinset]
      rw [hkeys, List.toFinset_card_of_nodup h.indexed.nodup, List.length_map]
      rfl
  | epoll p => exact h.registered

/-- `poll` has one entry for each descriptor. -/
theorem nodup_poll {p : PollPoller} (hp : p.Indexed) (call : PollCall) :
    ((p.wait call).2.2.map ReadyEvent.fd).Nodup := by
  unfold PollPoller.wait
  split
  · exact List.nodup_nil
  · cases call with
    | interrupted => exact List.nodup_nil
    | failed => exact List.nodup_nil
    | returned revents =>
        have hkeys := congrArg (List.map Prod.fst) (PollPoller.fill_interest p.fds revents)
        rw [List.map_map, List.map_map] at hkeys
        have hnodup : ((PollPoller.fill p.fds revents).map PollFd.fd).Nodup :=
          hkeys.symm ▸ hp.nodup
        dsimp only
        rw [List.map_map]
        exact (List.Sublist.map _ List.filter_sublist).nodup hnodup

theorem nodup_epoll {p : EpollPoller} {call : EpollCall} (hcall : p.Contract call) :
    ((p.wait call).2.2.map ReadyEvent.fd).Nodup := by
  cases call with
  | interrupted => exact List.nodup_nil
  | failed => exact List.nodup_nil
  | returned events =>
      show ((events.map _).map _).Nodup
      rw [List.map_map]
      exact hcall.2.1

/-- A poller reports every descriptor once, and only what it was told. -/
theorem Holds.wait (h : p.Holds told) {call : WaitCall} (hcall : p.Contract call) {p' : Poller}
    {ready : Int} {events : List ReadyEvent} (hw : p.wait call = some (p', ready, events)) :
    p'.Holds told ∧ (events.map ReadyEvent.fd).Nodup
      ∧ ∀ event ∈ events, ∃ want, told.lookup event.fd = some want
        ∧ Respects event.toReadyEvent want := by
  cases p with
  | poll p =>
      cases call with
      | poll call =>
          obtain rfl : Poller.poll (p.wait call).1 = p' := congrArg Prod.fst (Option.some.inj hw)
          obtain rfl : (p.wait call).2.2 = events := congrArg (·.2.2) (Option.some.inj hw)
          exact ⟨Polling.registers_wait h call, nodup_poll h.indexed call,
            fun event he => Polling.wait_respects h hcall he⟩
      | epoll call => exact absurd hw (by simp [Poller.wait])
  | epoll p =>
      cases call with
      | poll call => exact absurd hw (by simp [Poller.wait])
      | epoll call =>
          obtain rfl : Poller.epoll (p.wait call).1 = p' := congrArg Prod.fst (Option.some.inj hw)
          obtain rfl : (p.wait call).2.2 = events := congrArg (·.2.2) (Option.some.inj hw)
          have hsame : (p.wait call).1 = p := by cases call <;> rfl
          exact ⟨hsame.symm ▸ h, nodup_epoll hcall,
            fun event he => EpollPoller.Holds.respects h hcall he⟩

theorem Holds.asked (h : p.Holds told) (fd : Int) : p.asked fd = told.lookup fd := by
  cases p with
  | poll p =>
      show (p.index fd).bind _ = _
      cases hslot : p.index fd with
      | none =>
          have hfd : fd ∉ told := fun hmem => by
            obtain ⟨slot, hsome⟩ := Polling.Registers.index_some h hmem
            exact absurd (hslot.symm.trans hsome) (by simp)
          rw [Finmap.lookup_eq_none.mpr hfd]
          rfl
      | some slot =>
          obtain ⟨entry, hentry, rfl⟩ := h.indexed.get hslot
          have hasks := h.asks _ (List.mem_map_of_mem (List.mem_of_getElem? hentry))
          obtain ⟨⟨r, w⟩, hwant, hevents⟩ := Option.map_eq_some_iff.mp hasks
          have hevents' : PollPoller.eventsFor r w = entry.events := hevents
          have hwant' : told.lookup entry.fd = some (r, w) := hwant
          rw [Option.bind_some, hentry, Option.map_some, ← hevents', hwant']
          cases r <;> cases w <;> rfl
  | epoll p =>
      show (p.interest fd).map _ = _
      rw [EpollPoller.Holds.interest h, Option.map_map]
      cases told.lookup fd with
      | none => rfl
      | some want =>
          obtain ⟨r, w⟩ := want
          cases r <;> cases w <;> rfl

end Poller

namespace Loop

open EventLoop (Client Calls Calm handleClient turned)
open Repl (ascii newline)

variable {γ τ : Type} {session : τ} {destroy : γ → τ → γ} {handle : Handler (γ × τ)}
  {s s' : State γ τ}

/-! ## The tables -/

/-- What the kernel does when the loop waits. -/
def Kernel (s : State γ τ) : Act → Prop
  | .wait call => s.poller.Contract call
  | _ => True

instance : (s : State γ τ) → (a : Act) → Decidable (Kernel s a)
  | s, .wait call => inferInstanceAs (Decidable (s.poller.Contract call))
  | _, .accept _ => inferInstanceAs (Decidable True)
  | _, .turn _ => inferInstanceAs (Decidable True)
  | _, .close => inferInstanceAs (Decidable True)
  | _, .shutdown => inferInstanceAs (Decidable True)
  | _, .drop _ => inferInstanceAs (Decidable True)

/-- A client between two turns: it is calm, and wants what it should. -/
structure CalmAndAsking (c : Client τ) : Prop where
  calm : Calm c
  wantsRead : c.wantsRead = !c.readingPaused
  wantsWrite : c.wantsWrite = decide (c.outSent < c.outbuf.length)

theorem calmAndAsking_new (stream : Bytes) :
    CalmAndAsking ({ session := session, incoming := stream } : Client τ) :=
  ⟨Calm.init session stream, rfl, rfl⟩

/-- A turn does not look at what is shared, except for the session's sake. -/
theorem calmAndAsking_turned {c : Client τ} (h : CalmAndAsking c) (shared : γ)
    (event : EventLoop.ReadyEvent)
    (calls : Calls) (hopen : (handleClient handle (lift shared c) event calls).2 = false) :
    CalmAndAsking (lower (handleClient handle (lift shared c) event calls).1) := by
  have hlift : Calm (lift shared c) := ⟨h.calm.paused, h.calm.lines, h.calm.told⟩
  obtain ⟨hcalm, hread, hwrite⟩ :=
    EventLoop.calm_turned hlift (turned handle (lift shared c) event calls) hopen
  exact ⟨⟨hcalm.paused, hcalm.lines, hcalm.told⟩, hread, hwrite⟩

/-- The poller was told of the listening socket and of the clients, and of nothing else. -/
structure PollerKnows (s : State γ τ) (told : Finmap fun _ : Int => Bool × Bool) : Prop where
  poller : s.poller.Holds told
  listener : told.lookup s.listener = some (true, false)
  clients : ∀ fd, fd ≠ s.listener → told.lookup fd = (s.clients.lookup fd).map (·.registered)

/--
The event is about the listening socket, or about a client that wants what is reported and
is the one it was reported for.
-/
def FindsItsClient (s : State γ τ) (event : ReadyEvent) : Prop :=
  event.fd = s.listener ∨ ∃ c, s.clients.lookup event.fd = some c ∧ event.fd ∉ s.pendingClose
    ∧ Respects event.toReadyEvent c.registered ∧ s.number event.fd = s.reported event.fd

/-- What is true whenever the loop can be told something. -/
structure Inv (s : State γ τ) : Prop where
  told : s.phase ≠ .leaving → ∃ told, PollerKnows s told
  listener : s.listener ∉ s.clients
  opened : ∀ fd, fd ∈ s.opened ↔ fd ∈ s.clients
  closing : s.pendingClose.Nodup ∧ ∀ fd ∈ s.pendingClose, fd ∈ s.clients
  attended : ∀ fd c, s.clients.lookup fd = some c → fd ∉ s.pendingClose → CalmAndAsking c
  events : ∀ events, s.phase = .serving events →
    (events.map ReadyEvent.fd).Nodup ∧ ∀ event ∈ events, FindsItsClient s event
  /-- Clients are closed at the end of the round, and not later. -/
  closed : (∀ events, s.phase ≠ .serving events) → s.pendingClose = []

theorem inv_start {poller : Poller} (hnew : poller.Holds ∅) {listener : Int} {shared : γ}
    (h : start poller listener shared = some s) : Inv s := by
  unfold start at h
  split at h
  · rename_i p hadd
    cases h
    have hfd : listener ∉ (∅ : Finmap fun _ : Int => Bool × Bool) := Finmap.notMem_empty
    rcases hnew.add hfd true true false with hno | ⟨p', hp', hholds⟩
    · rw [hadd] at hno
      exact absurd (congrArg Prod.snd hno) (by simp)
    · obtain rfl : p = p' := congrArg Prod.fst (hadd.symm.trans hp')
      refine ⟨fun _ => ⟨_, hholds, Finmap.lookup_insert _, fun fd hfd => ?_⟩, Finmap.notMem_empty,
        fun fd => iff_of_false (Finset.notMem_empty _) Finmap.notMem_empty, by simp, ?_, by simp,
        fun _ => rfl⟩
      · rw [Finmap.lookup_insert_of_ne _ hfd, Finmap.lookup_empty, Finmap.lookup_empty]
        rfl
      · intro fd c hc
        rw [Finmap.lookup_empty] at hc
        exact absurd hc (by simp)
  · exact absurd h (by simp)

/-! ## The steps -/

/-- An event that was expected is expected, so long as its client is left alone. -/
theorem FindsItsClient.frame {event : ReadyEvent} (h : FindsItsClient s event)
    (hl : s'.listener = s.listener)
    (hclients : event.fd ≠ s.listener → s'.clients.lookup event.fd = s.clients.lookup event.fd)
    (hclosing : event.fd ≠ s.listener → event.fd ∉ s.pendingClose → event.fd ∉ s'.pendingClose)
    (hnumber : s'.number event.fd = s.number event.fd) (hreported : s'.reported = s.reported) :
    FindsItsClient s' event := by
  by_cases hfd : event.fd = s.listener
  · exact .inl (hfd.trans hl.symm)
  · rcases h with h | ⟨c, hc, hopen, hrespects, hsame⟩
    · exact absurd h hfd
    · refine .inr ⟨c, (hclients hfd).trans hc, hclosing hfd hopen, hrespects, ?_⟩
      rw [hnumber, hreported, hsame]

theorem inv_wait (h : Inv s) {call : WaitCall} (hcall : s.poller.Contract call)
    (hs : step session destroy handle s (.wait call) = some s') : Inv s' := by
  rw [step] at hs
  split at hs
  · rename_i hphase
    have hnone := h.closed (by simp [hphase])
    obtain ⟨told, htold⟩ := h.told (by simp [hphase])
    split at hs
    · cases hs
      exact { h with told := by simp, events := by simp, closed := fun _ => hnone }
    · split at hs
      · exact absurd hs (by simp)
      · rename_i p ready events hw
        obtain ⟨hholds, hnodup, hrespects⟩ := htold.poller.wait hcall hw
        split at hs
        · cases hs
          exact { h with told := by simp, events := by simp, closed := fun _ => hnone }
        · cases hs
          refine { h with
            told := fun _ => ⟨told, hholds, htold.listener, htold.clients⟩
            closed := fun hno => absurd rfl (hno events)
            events := ?_ }
          rintro _ ⟨⟩
          refine ⟨hnodup, fun event he => ?_⟩
          obtain ⟨want, hwant, hok⟩ := hrespects event he
          by_cases hfd : event.fd = s.listener
          · exact .inl hfd
          · rw [htold.clients _ hfd] at hwant
            obtain ⟨c, hc, rfl⟩ := Option.map_eq_some_iff.mp hwant
            exact .inr ⟨c, hc, by rw [hnone]; exact List.not_mem_nil, hok, rfl⟩
  · exact absurd hs (by simp)

/-- The event in front has been taken. -/
theorem inv_next (h : Inv s) {event : ReadyEvent} {events : List ReadyEvent}
    (hphase : s.phase = .serving (event :: events)) : Inv { s with phase := .serving events } := by
  obtain ⟨hnodup, hexpected⟩ := h.events _ hphase
  refine { h with
    told := fun _ => ?_
    events := ?_
    closed := fun hno => absurd rfl (hno events) }
  · obtain ⟨told, htold⟩ := h.told (by simp [hphase])
    exact ⟨told, htold.poller, htold.listener, htold.clients⟩
  · rintro _ ⟨⟩
    exact ⟨(List.nodup_cons.mp hnodup).2, fun e he => hexpected e (List.mem_cons_of_mem _ he)⟩

theorem inv_welcome (h : Inv s) {events : List ReadyEvent} (hphase : s.phase = .serving events)
    {fd : Int} (hnew : ¬ (fd = s.listener ∨ fd ∈ s.opened)) (stream : Bytes)
    (nonBlocking room : Bool) :
    Inv (s.welcome session destroy fd stream nonBlocking room)
      ∧ (s.welcome session destroy fd stream nonBlocking room).phase = s.phase := by
  obtain ⟨hlistener, hopened⟩ := not_or.mp hnew
  have hfd : fd ∉ s.clients := fun hmem => hopened ((h.opened fd).mpr hmem)
  obtain ⟨told, htold⟩ := h.told (by simp [hphase])
  unfold State.welcome
  cases nonBlocking with
  | false => exact ⟨h, rfl⟩
  | true =>
      rw [if_pos rfl]
      have htoldfd : fd ∉ told := by
        rw [← Finmap.lookup_eq_none, htold.clients fd hlistener, Finmap.lookup_eq_none.mpr hfd]
        rfl
      rcases htold.poller.add htoldfd room true false with hno | ⟨p, hp, hholds⟩
      · rw [hno]
        exact ⟨{ h with told := fun _ => ⟨told, htold.poller, htold.listener, htold.clients⟩ }, rfl⟩
      · rw [hp]
        dsimp only
        rw [if_neg hfd]
        refine ⟨?_, rfl⟩
        have hother : ∀ fd', fd' ∈ s.clients → fd' ≠ fd := fun fd' hmem heq => hfd (heq ▸ hmem)
        refine
          { told := fun _ => ⟨_, hholds, ?_, fun fd' hfd' => ?_⟩
            listener := ?_, opened := fun fd' => ?_, closing := ⟨h.closing.1, fun fd' hmem => ?_⟩
            attended := fun fd' c hc hopen => ?_, events := fun es hes => ?_, closed := h.closed }
        · rw [Finmap.lookup_insert_of_ne _ (Ne.symm hlistener)]
          exact htold.listener
        · by_cases heq : fd' = fd
          · subst heq
            rw [Finmap.lookup_insert, Finmap.lookup_insert]
            rfl
          · rw [Finmap.lookup_insert_of_ne _ heq, Finmap.lookup_insert_of_ne _ heq]
            exact htold.clients fd' hfd'
        · rw [Finmap.mem_insert, not_or]
          exact ⟨Ne.symm hlistener, h.listener⟩
        · rw [Finmap.mem_insert, Finset.mem_insert, h.opened]
        · exact Finmap.mem_insert.mpr (.inr (h.closing.2 fd' hmem))
        · by_cases heq : fd' = fd
          · subst heq
            rw [Finmap.lookup_insert] at hc
            cases hc
            exact calmAndAsking_new stream
          · rw [Finmap.lookup_insert_of_ne _ heq] at hc
            exact h.attended fd' c hc hopen
        · obtain ⟨hnodup, hexpected⟩ := h.events es hes
          refine ⟨hnodup, fun event he => ?_⟩
          rcases hexpected event he with hl | ⟨c, hc, hopen, hrespects, hsame⟩
          · exact .inl hl
          · have hne := hother event.fd (Finmap.mem_iff.mpr ⟨c, hc⟩)
            exact .inr ⟨c, (Finmap.lookup_insert_of_ne _ hne).trans hc, hopen, hrespects,
              (Function.update_of_ne hne ..).trans hsame⟩

/-- **New clients do not disturb the round.** -/
theorem inv_acceptNew (h : Inv s) {events : List ReadyEvent} (hphase : s.phase = .serving events)
    {n : Nat} {answers : List Accepted} (hs : acceptNew session destroy n s answers = some s') :
    Inv s' := by
  induction n generalizing s answers with
  | zero =>
      cases hs
      exact h
  | succ n ih =>
      cases answers with
      | nil =>
          cases hs
          exact h
      | cons answer answers =>
          cases answer with
          | nobody =>
              cases hs
              exact h
          | failed =>
              cases hs
              exact h
          | socket fd stream nonBlocking room =>
              rw [acceptNew] at hs
              split at hs
              · exact absurd hs (by simp)
              · rename_i hnew
                obtain ⟨hnext, hsame⟩ := @inv_welcome γ τ session destroy s h events hphase fd hnew
                  stream nonBlocking room
                exact ih hnext (hsame.trans hphase) hs

/-- A client has its turn; the events that are left are about others. -/
theorem inv_turned (h : Inv s) {event : ReadyEvent} {events : List ReadyEvent}
    (hphase : s.phase = .serving events) (hfd : event.fd ≠ s.listener)
    (hothers : ∀ e ∈ events, e.fd ≠ event.fd) (hopen : event.fd ∉ s.pendingClose) {c : Client τ}
    (hc : s.clients.lookup event.fd = some c) (calls : Calls) :
    Inv (s.turned event.fd c (handleClient handle (lift s.shared c) event.toReadyEvent calls)) := by
  have hattended := @calmAndAsking_turned γ τ handle c (h.attended _ c hc hopen) s.shared
    event.toReadyEvent calls
  generalize handleClient handle (lift s.shared c) event.toReadyEvent calls = r at hattended
  have hmem : event.fd ∈ s.clients := Finmap.mem_iff.mpr ⟨c, hc⟩
  obtain ⟨told, htold⟩ := h.told (by simp [hphase])
  have htoldfd : event.fd ∈ told := by
    refine Finmap.mem_iff.mpr ⟨c.registered, ?_⟩
    rw [htold.clients _ hfd, hc]
    rfl
  have hclose : ∀ fd, fd ∉ (s.turned event.fd c r).pendingClose → fd ∉ s.pendingClose := by
    intro fd hno hin
    refine hno ?_
    show fd ∈ if r.2 then s.pendingClose ++ [event.fd] else s.pendingClose
    split
    · exact List.mem_append_left _ hin
    · exact hin
  refine
    { told := fun _ => ?_, listener := ?_, opened := fun fd => ?_, closing := ?_
      attended := fun fd c' hc' hno => ?_, events := fun es hes => ?_
      closed := fun hno => absurd hphase (hno events) }
  · -- the poller has the last of what it was told
    obtain ⟨p, hp⟩ : ∃ told', (tell s.poller event.fd c.registered r.1.registered).Holds told'
        ∧ told'.lookup s.listener = some (true, false)
        ∧ ∀ fd, fd ≠ s.listener → told'.lookup fd
          = if fd = event.fd then some r.1.registered else told.lookup fd := by
      unfold tell
      split
      · rename_i hsame
        refine ⟨told, htold.poller, htold.listener, fun fd hl => ?_⟩
        split
        · rename_i heq
          rw [heq, htold.clients _ hfd, hc, hsame]
          rfl
        · rfl
      · obtain ⟨p', hp', hholds⟩ := htold.poller.modify htoldfd r.1.registered.1 r.1.registered.2
        refine ⟨_, by rw [hp']; exact hholds, ?_, fun fd hl => ?_⟩
        · rw [Finmap.lookup_insert_of_ne _ (Ne.symm hfd)]
          exact htold.listener
        · split
          · rename_i heq
            rw [heq, Finmap.lookup_insert]
          · rename_i hne
            rw [Finmap.lookup_insert_of_ne _ hne]
    refine ⟨p, hp.1, hp.2.1, fun fd hl => (hp.2.2 fd hl).trans ?_⟩
    show _ = ((s.clients.insert event.fd (lower r.1)).lookup fd).map _
    split
    · rename_i heq
      rw [heq, Finmap.lookup_insert]
      rfl
    · rename_i hne
      rw [Finmap.lookup_insert_of_ne _ hne]
      exact htold.clients fd hl
  · show s.listener ∉ s.clients.insert _ _
    rw [Finmap.mem_insert, not_or]
    exact ⟨Ne.symm hfd, h.listener⟩
  · show fd ∈ s.opened ↔ fd ∈ s.clients.insert _ _
    rw [Finmap.mem_insert, h.opened]
    exact (or_iff_right_of_imp fun heq => heq ▸ hmem).symm
  · show (if r.2 then s.pendingClose ++ [event.fd] else s.pendingClose).Nodup ∧ ∀ fd ∈ (if r.2 then
      s.pendingClose ++ [event.fd] else s.pendingClose), fd ∈ s.clients.insert _ _
    split
    · refine ⟨List.concat_eq_append ▸ h.closing.1.concat hopen, fun fd hin => ?_⟩
      refine Finmap.mem_insert.mpr ?_
      rcases List.mem_append.mp hin with hin | hin
      · exact .inr (h.closing.2 fd hin)
      · exact .inl (List.mem_singleton.mp hin)
    · exact ⟨h.closing.1, fun fd hin => Finmap.mem_insert.mpr (.inr (h.closing.2 fd hin))⟩
  · replace hc' : (s.clients.insert event.fd (lower r.1)).lookup fd = some c' := hc'
    by_cases heq : fd = event.fd
    · subst heq
      rw [Finmap.lookup_insert] at hc'
      cases hc'
      refine hattended (Bool.eq_false_iff.mpr fun hr => hno ?_)
      show event.fd ∈ if r.2 then s.pendingClose ++ [event.fd] else s.pendingClose
      rw [if_pos hr]
      exact List.mem_append_right _ (List.mem_singleton.mpr rfl)
    · rw [Finmap.lookup_insert_of_ne _ heq] at hc'
      exact h.attended fd c' hc' (hclose fd hno)
  · obtain ⟨hnodup, hexpected⟩ := h.events es hes
    obtain rfl : events = es := by simpa using hphase.symm.trans hes
    refine ⟨hnodup, fun e he => ?_⟩
    have hne := hothers e he
    refine (hexpected e he).frame rfl (fun _ => Finmap.lookup_insert_of_ne _ hne)
      (fun _ hin => ?_) rfl rfl
    show e.fd ∉ if r.2 then s.pendingClose ++ [event.fd] else s.pendingClose
    split
    · rw [List.mem_append, List.mem_singleton, not_or]
      exact ⟨hin, hne⟩
    · exact hin

/-- A client is destroyed that no event is about, and the others are as they were. -/
theorem inv_erased (h : Inv s) (fd : Int)
    (hround : ∀ events, s.phase = .serving events → events = []) {p : Poller} {shared : γ}
    (htold : s.phase ≠ .leaving → ∃ told, p.Holds told
      ∧ told.lookup s.listener = some (true, false)
      ∧ ∀ fd', fd' ≠ s.listener →
        told.lookup fd' = ((s.clients.erase fd).lookup fd').map (·.registered)) :
    Inv
      { s with
        poller := p
        shared := shared
        clients := s.clients.erase fd
        opened := s.opened.erase fd
        pendingClose := s.pendingClose.erase fd } := by
  have hclosing : ∀ fd', fd' ∈ s.pendingClose.erase fd ↔ fd' ≠ fd ∧ fd' ∈ s.pendingClose :=
    fun _ => h.closing.1.mem_erase_iff
  refine
    { told := fun hphase => ?_, listener := ?_, opened := fun fd' => ?_
      closing := ⟨h.closing.1.erase fd, fun fd' hin => ?_⟩, attended := fun fd' c' hc' hno => ?_
      events := fun es hes => ?_, closed := fun hphase => ?_ }
  · obtain ⟨told, hholds, hlistener, hclients⟩ := htold hphase
    exact ⟨told, hholds, hlistener, hclients⟩
  · rw [Finmap.mem_erase]
    exact fun hmem => h.listener hmem.2
  · rw [Finset.mem_erase, Finmap.mem_erase, h.opened]
  · obtain ⟨hne, hin⟩ := (hclosing fd').mp hin
    exact Finmap.mem_erase.mpr ⟨hne, h.closing.2 fd' hin⟩
  · dsimp only at hc' hno
    by_cases heq : fd' = fd
    · rw [heq, Finmap.lookup_erase] at hc'
      exact absurd hc' (by simp)
    · rw [Finmap.lookup_erase_ne heq] at hc'
      exact h.attended fd' c' hc' fun hin => hno ((hclosing fd').mpr ⟨heq, hin⟩)
  · rw [hround es hes]
    exact ⟨List.nodup_nil, by simp⟩
  · rw [h.closed hphase]
    rfl

theorem inv_close (h : Inv s) (hs : step session destroy handle s .close = some s') : Inv s' := by
  rw [step] at hs
  split at hs
  · rename_i fd fds hphase hpending
    cases hs
    obtain ⟨c, hc⟩ :=
      Finmap.mem_iff.mp (h.closing.2 fd (by rw [hpending]; exact List.mem_cons_self ..))
    obtain ⟨told, htold⟩ := h.told (by simp [hphase])
    have hfd : fd ≠ s.listener := by
      rintro rfl
      exact h.listener (Finmap.mem_iff.mpr ⟨c, hc⟩)
    have htoldfd : fd ∈ told := by
      refine Finmap.mem_iff.mpr ⟨c.registered, ?_⟩
      rw [htold.clients fd hfd, hc]
      rfl
    obtain ⟨p, hp, hholds⟩ := htold.poller.remove htoldfd
    have hnext := @inv_erased γ τ s h fd (fun es hes => by simpa using hes.symm.trans hphase) p
      (destroy s.shared c.session) fun _ => ⟨told.erase fd, hholds, ?_, fun fd' hfd' => ?_⟩
    · rw [hpending, List.erase_cons_head] at hnext
      unfold closeClient
      rw [hc, hp]
      exact hnext
    · rw [Finmap.lookup_erase_ne (Ne.symm hfd)]
      exact htold.listener
    · by_cases heq : fd' = fd
      · rw [heq, Finmap.lookup_erase, Finmap.lookup_erase]
        rfl
      · rw [Finmap.lookup_erase_ne heq, Finmap.lookup_erase_ne heq]
        exact htold.clients fd' hfd'
  · rename_i hphase hpending
    cases hs
    obtain ⟨told, htold⟩ := h.told (by simp [hphase])
    exact { h with
      told := fun _ => ⟨told, htold.poller, htold.listener, htold.clients⟩
      events := by simp
      closed := fun _ => hpending }
  · exact absurd hs (by simp)

theorem inv_drop (h : Inv s) {fd : Int} (hs : step session destroy handle s (.drop fd) = some s') :
    Inv s' := by
  rw [step] at hs
  split at hs
  · rename_i c hphase hc
    cases hs
    have hnone := h.closed (by simp [hphase])
    have hnext := @inv_erased γ τ s h fd (by simp [hphase]) s.poller (destroy s.shared c.session)
      fun hno => absurd hphase hno
    rw [hnone] at hnext
    unfold State.destroyed
    rw [hnone]
    exact hnext
  · exact absurd hs (by simp)

theorem inv_step (h : Inv s) {a : Act} (hok : Kernel s a)
    (hs : step session destroy handle s a = some s') : Inv s' := by
  cases a with
  | wait call => exact inv_wait h hok hs
  | accept answers =>
      rw [step] at hs
      split at hs
      · rename_i event events hphase
        split at hs
        · exact inv_acceptNew (inv_next h hphase) rfl hs
        · exact absurd hs (by simp)
      · exact absurd hs (by simp)
  | turn calls =>
      rw [step] at hs
      split at hs
      · rename_i event events hphase
        split at hs
        · exact absurd hs (by simp)
        · rename_i hfd
          obtain ⟨hnodup, hexpected⟩ := h.events _ hphase
          -- the event is about a client, so that it is found
          rcases hexpected event (List.mem_cons_self ..) with hl | ⟨c, hc, hopen, -⟩
          · exact absurd hl hfd
          · dsimp only at hs
            rw [hc] at hs
            cases hs
            have hothers : ∀ e ∈ events, e.fd ≠ event.fd := fun e he heq =>
              (List.nodup_cons.mp hnodup).1 (heq ▸ List.mem_map_of_mem he)
            exact inv_turned (inv_next h hphase) rfl hfd hothers hopen hc calls
      · exact absurd hs (by simp)
  | close => exact inv_close h hs
  | shutdown =>
      cases hs
      refine { h with told := fun hphase => ?_ }
      obtain ⟨told, htold⟩ := h.told hphase
      exact ⟨told, htold.poller, htold.listener, htold.clients⟩
  | drop fd => exact inv_drop h hs

theorem inv_init {shared : γ} (h : (system session destroy handle shared).init s) : Inv s := by
  obtain ⟨poller, hpoller, listener, hstart⟩ := h
  have hholds : poller.Holds ∅ := by
    rcases List.mem_cons.mp hpoller with rfl | hpoller
    · exact Poller.holds_poll
    · cases List.mem_singleton.mp hpoller
      exact Poller.holds_epoll
  exact inv_start hholds hstart

theorem inv_reachable {shared : γ}
    (h : (system session destroy handle shared).ReachableBy Kernel s) : Inv s :=
  h.invariant (fun _ => inv_init) fun _ _ _ hi hok hs => inv_step hi hok hs

/-! ## What follows -/

/--
**Every event finds its client.** When the loop comes to an event of the round, it is about
the listening socket or about a client that is there. That client is the one the event was
reported for, and not one that has come to its descriptor since; and it wants what is
reported: it is read from only while reading is not paused, and written to only when there
is something to write.
-/
theorem events_find_clients {shared : γ}
    (h : (system session destroy handle shared).ReachableBy Kernel s) {event : ReadyEvent}
    {events : List ReadyEvent} (hphase : s.phase = .serving (event :: events)) :
    event.fd = s.listener ∨ ∃ c, s.clients.lookup event.fd = some c
      ∧ s.number event.fd = s.reported event.fd
      ∧ (event.readable = true → c.readingPaused = false)
      ∧ (event.writable = true → c.outSent < c.outbuf.length)
      ∧ ∀ later ∈ events, later.fd ≠ event.fd := by
  have hinv := inv_reachable h
  obtain ⟨hnodup, hexpected⟩ := hinv.events _ hphase
  rcases hexpected event (List.mem_cons_self ..) with hl | ⟨c, hc, hopen, ⟨hread, hwrite⟩, hsame⟩
  · exact .inl hl
  · obtain ⟨hcalm, hwantsRead, hwantsWrite⟩ := hinv.attended _ c hc hopen
    rw [hcalm.told] at hread hwrite
    refine .inr ⟨c, hc, hsame, fun hr => ?_, fun hw => ?_, fun later hlater heq => ?_⟩
    · have := hread hr
      rw [hwantsRead] at this
      simpa using this
    · have := hwrite hw
      rw [hwantsWrite] at this
      exact of_decide_eq_true this
    · exact (List.nodup_cons.mp hnodup).1 (heq ▸ List.mem_map_of_mem hlater)

/-- A session that repeats the beginning of what it hears, in company. -/
def echoes : Handler (Unit × Unit) := fun s line =>
  { session := s, text := line.take 8 ++ ascii "\n", quit := decide (line = ascii "QUIT") }

/-- The first of two clients leaves, and a third one comes before the second has its turn. -/
def crowded : List Act :=
  [.wait (.epoll (.returned [(3, 1)])),
    .accept [.socket 5 (ascii "QUIT\n") true true, .socket 7 (ascii "a\n") true true, .nobody],
    .close, .wait (.epoll (.returned [(5, 0x2001), (3, 1), (7, 1)])),
    .turn { reads := [.moved 100] }, .accept [.socket 9 [] true true]]

theorem events_find_clients_crowded :
    ∃ s : State Unit Unit, (system () (fun g _ => g) echoes ()).ReachableBy Kernel s
      ∧ s.pendingClose = [5]
      ∧ ∃ c, s.clients.lookup 7 = some c ∧ s.number 7 = s.reported 7 ∧ c.readingPaused = false := by
  obtain ⟨s, hreach, hphase, hpending, hlistener⟩ := System.exists_reachableBy
    (p := fun s : State Unit Unit => s.phase = .serving [{ fd := 7, readable := true }]
      ∧ s.pendingClose = [5] ∧ s.listener = 3)
    (show (system () (fun g _ => g) echoes ()).ReachableBy Kernel _ from
      .init ⟨.epoll {}, List.mem_cons_of_mem _ (List.mem_singleton.mpr rfl), 3, rfl⟩)
    crowded (by decide +kernel) (by decide +kernel)
  refine ⟨s, hreach, hpending, ?_⟩
  rcases events_find_clients hreach hphase with hl | ⟨c, hc, hsame, hread, -⟩
  · rw [hlistener] at hl
    exact absurd hl (by decide)
  · exact ⟨c, hc, hsame, hread rfl⟩

/--
**The tables agree.** Whenever the loop waits, the sockets that are open are those of its
clients; the poller has them and the listening socket, and nothing else; the kernel is asked
for input exactly where reading is not paused, and for room exactly where there is output;
and nobody is left who waits for neither, or for input with a line in its buffer.
-/
theorem tables_agree {shared : γ}
    (h : (system session destroy handle shared).ReachableBy Kernel s)
    (hphase : s.phase = .waiting) :
    (∀ fd, fd ∈ s.opened ↔ fd ∈ s.clients)
      ∧ s.poller.size = s.clients.keys.card + 1
      ∧ (∀ fd, s.poller.asked fd = if fd = s.listener then some (true, false)
          else (s.clients.lookup fd).map fun c =>
            (!c.readingPaused, decide (c.outSent < c.outbuf.length)))
      ∧ ∀ fd c, s.clients.lookup fd = some c →
        (c.readingPaused = true → c.outSent < c.outbuf.length)
          ∧ (c.readingPaused = false → c.closeAfterFlush = false → newline ∉ c.inbuf) := by
  have hinv := inv_reachable h
  have hnone := hinv.closed (by simp [hphase])
  obtain ⟨told, htold⟩ := hinv.told (by simp [hphase])
  have hattended : ∀ fd c, s.clients.lookup fd = some c → CalmAndAsking c := fun fd c hc =>
    hinv.attended fd c hc (by rw [hnone]; exact List.not_mem_nil)
  refine ⟨hinv.opened, ?_, fun fd => ?_, fun fd c hc => ?_⟩
  · have hkeys : told.keys = insert s.listener s.clients.keys := by
      ext fd
      rw [Finset.mem_insert, Finmap.mem_keys, Finmap.mem_keys, ← Finmap.lookup_isSome,
        ← Finmap.lookup_isSome]
      by_cases hfd : fd = s.listener
      · rw [hfd, htold.listener]
        simp
      · rw [htold.clients fd hfd, Option.isSome_map]
        simp [hfd]
    rw [htold.poller.size, hkeys, Finset.card_insert_of_notMem]
    rw [Finmap.mem_keys]
    exact hinv.listener
  · rw [htold.poller.asked]
    split
    · rename_i hfd
      rw [hfd, htold.listener]
    · rename_i hfd
      rw [htold.clients fd hfd]
      cases hc : s.clients.lookup fd with
      | none => rfl
      | some c =>
          obtain ⟨hcalm, hread, hwrite⟩ := hattended fd c hc
          rw [Option.map_some, Option.map_some, hcalm.told, hread, hwrite]
  · obtain ⟨hcalm, -, -⟩ := hattended fd c hc
    exact ⟨fun hp => Nat.not_le.mp fun hle => hcalm.paused hp (Client.unsent_eq_nil.mpr hle),
      fun hp hopen => cutLine_eq_none.mp (hcalm.lines hp hopen)⟩

theorem tables_agree_crowded :
    ∃ s : State Unit Unit, (system () (fun g _ => g) echoes ()).ReachableBy Kernel s
      ∧ s.accepted = 3 ∧ s.clients.keys = {7, 9} ∧ s.poller.size = 3 ∧ s.poller.asked 5 = none := by
  obtain ⟨s, hreach, hphase, haccepted, hlistener, hkeys⟩ := System.exists_reachableBy
    (p := fun s : State Unit Unit => s.phase = .waiting ∧ s.accepted = 3 ∧ s.listener = 3
      ∧ s.clients.keys = {7, 9})
    (show (system () (fun g _ => g) echoes ()).ReachableBy Kernel _ from
      .init ⟨.epoll {}, List.mem_cons_of_mem _ (List.mem_singleton.mpr rfl), 3, rfl⟩)
    (crowded ++ [.turn { reads := [.moved 100] }, .close, .close]) (by decide +kernel)
    (by decide +kernel)
  obtain ⟨-, hsize, hasked, -⟩ := tables_agree hreach hphase
  refine ⟨s, hreach, haccepted, hkeys, by rw [hsize, hkeys]; rfl, ?_⟩
  have hgone : (5 : Int) ∉ s.clients := by
    rw [← Finmap.mem_keys, hkeys]
    decide
  rw [hasked, hlistener, if_neg (by decide), Finmap.lookup_eq_none.mpr hgone]
  rfl

end Loop

end KvStore.Net
