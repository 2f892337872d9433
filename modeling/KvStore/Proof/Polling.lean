import KvStore.Lib.Slots
import KvStore.Net.Poller

/-!
# The poller is a map

Whatever calls are made, the vector and its index say the same thing, and that is what
the poller was told. In particular the vector that `poll` is given asks for what the
event loop wants, so an event is one that the loop is waiting for (`wait_respects`),
which is what `EventLoop.step` takes for granted.
-/

namespace KvStore.Net.PollPoller

open Lib

/-- The index is right. -/
abbrev Indexed (p : PollPoller) : Prop := Indexes PollFd.fd p.fds p.index

section Calls

variable {p : PollPoller}

theorem add_fails {fd : Int} (h : (p.index fd).isSome = true) (r w : Bool) :
    p.add fd r w = (p, false) := by
  obtain ⟨slot, hslot⟩ := Option.isSome_iff_exists.mp h
  rw [add, hslot]

theorem add_succeeds {fd : Int} (h : p.index fd = none) (r w : Bool) :
    p.add fd r w
      = ({ fds := p.fds ++ [{ fd := fd, events := eventsFor r w }]
           index := Function.update p.index fd (some p.fds.length) }, true) := by
  rw [add, h]

theorem modify_fails {fd : Int} (h : p.index fd = none) (r w : Bool) :
    p.modify fd r w = (p, false) := by
  rw [modify, h]

theorem modify_succeeds {fd : Int} {slot : Nat} (h : p.index fd = some slot) (r w : Bool) :
    p.modify fd r w
      = ({ p with
            fds := p.fds.modify slot fun entry => { entry with events := eventsFor r w } },
              true) := by
  rw [modify, h]

theorem remove_fails {fd : Int} (h : p.index fd = none) : p.remove fd = (p, false) := by
  rw [remove, h]

/-- Also the last entry may be thought of as moved to its place before it goes. -/
theorem remove_succeeds (hp : p.Indexed) {fd : Int} {slot : Nat} (h : p.index fd = some slot) :
    ∃ last, p.fds[p.fds.length - 1]? = some last
      ∧ p.remove fd
        = ({ fds := (p.fds.set slot last).dropLast
             index := Function.update (Function.update p.index last.fd (some slot)) fd none },
            true) := by
  have hlt := hp.lt h
  obtain ⟨last, hlast⟩ : ∃ last, p.fds[p.fds.length - 1]? = some last :=
    ⟨_, List.getElem?_eq_getElem (by omega)⟩
  refine ⟨last, hlast, ?_⟩
  rw [remove, h]
  by_cases hslot : slot = p.fds.length - 1
  · -- nothing moves, and the index entry of the last is the one that goes
    subst hslot
    obtain ⟨entry, hentry, rfl⟩ := hp.get h
    obtain rfl : last = entry := Option.some.inj (hlast.symm.trans hentry)
    obtain ⟨hbound, hget⟩ := List.getElem?_eq_some_iff.mp hlast
    have hset : p.fds.set (p.fds.length - 1) last = p.fds := by
      rw [← hget]
      exact List.set_getElem_self hbound
    rw [hset, Function.update_idem]
    simp
  · have hmove : p.moveLast slot
        = { fds := p.fds.set slot last, index := Function.update p.index last.fd (some slot) } := by
      rw [moveLast, hlast]
    simp [hslot, hmove]

/-- A call that fails changes nothing. -/
theorem add_false {fd : Int} {r w : Bool} (h : (p.add fd r w).2 = false) :
    (p.add fd r w).1 = p := by
  cases hi : p.index fd with
  | some slot => rw [add_fails (by rw [hi]; rfl)]
  | none => rw [add_succeeds hi] at h; exact absurd h (by simp)

theorem modify_false {fd : Int} {r w : Bool} (h : (p.modify fd r w).2 = false) :
    (p.modify fd r w).1 = p := by
  cases hi : p.index fd with
  | some slot => rw [modify_succeeds hi] at h; exact absurd h (by simp)
  | none => rw [modify_fails hi]

theorem remove_false {fd : Int} (h : (p.remove fd).2 = false) : (p.remove fd).1 = p := by
  cases hi : p.index fd with
  | some slot => rw [remove, hi] at h; exact absurd h (by simp)
  | none => rw [remove_fails hi]

end Calls

/-! ## Waiting changes no interest -/

/-- Entries up to what `poll` fills in. -/
def interest (entry : PollFd) : Int × UInt16 := (entry.fd, entry.events)

theorem fill_interest (fds : List PollFd) (revents : List UInt16) :
    (fill fds revents).map interest = fds.map interest := by
  induction fds generalizing revents with
  | nil => rfl
  | cons entry fds ih =>
      cases revents with
      | nil => rw [fill, List.map_cons, List.map_cons, ih]; rfl
      | cons flags revents => rw [fill, List.map_cons, List.map_cons, ih]; rfl

theorem wait_interest (p : PollPoller) (call : PollCall) :
    (p.wait call).1.fds.map interest = p.fds.map interest ∧ (p.wait call).1.index = p.index := by
  unfold wait
  split
  · exact ⟨rfl, rfl⟩
  · cases call with
    | interrupted => exact ⟨rfl, rfl⟩
    | failed => exact ⟨rfl, rfl⟩
    | returned revents => exact ⟨fill_interest _ _, rfl⟩

end KvStore.Net.PollPoller

namespace KvStore.Net.Polling

open Lib PollPoller

/-! ## The invariant -/

/-- The interest that an entry asks for is the one the poller was told. -/
def Asks (told : Finmap fun _ : Int => Bool × Bool) (i : Int × UInt16) : Prop :=
  (told.lookup i.1).map (fun want => eventsFor want.1 want.2) = some i.2

/-- The vector has one entry for what is registered, and asks for what was last said. -/
structure Registers (s : State) : Prop where
  indexed : s.poller.Indexed
  /-- What is registered is in the vector. -/
  told : ∀ fd, fd ∈ s.told ↔ fd ∈ s.poller.fds.map PollFd.fd
  asks : ∀ i ∈ s.poller.fds.map interest, Asks s.told i

theorem Registers.isSome_iff {s : State} (h : Registers s) (fd : Int) :
    (s.poller.index fd).isSome = true ↔ fd ∈ s.told :=
  (h.indexed.isSome_iff fd).trans (h.told fd).symm

theorem Registers.index_none {s : State} (h : Registers s) {fd : Int} (hfd : fd ∉ s.told) :
    s.poller.index fd = none := by
  rw [← Option.not_isSome_iff_eq_none, h.isSome_iff]
  exact hfd

theorem Registers.index_some {s : State} (h : Registers s) {fd : Int} (hfd : fd ∈ s.told) :
    ∃ slot, s.poller.index fd = some slot :=
  Option.isSome_iff_exists.mp ((h.isSome_iff fd).mpr hfd)

/-- What is told of one descriptor is not asked by another. -/
theorem Asks.insert {told : Finmap fun _ : Int => Bool × Bool} {i : Int × UInt16} {fd : Int}
    {want : Bool × Bool} (h : Asks told i) (hne : i.1 ≠ fd) : Asks (told.insert fd want) i := by
  rwa [Asks, Finmap.lookup_insert_of_ne _ hne]

theorem Asks.erase {told : Finmap fun _ : Int => Bool × Bool} {i : Int × UInt16} {fd : Int}
    (h : Asks told i) (hne : i.1 ≠ fd) : Asks (told.erase fd) i := by
  rwa [Asks, Finmap.lookup_erase_ne hne]

theorem Asks.told {told : Finmap fun _ : Int => Bool × Bool} (fd : Int) (want : Bool × Bool) :
    Asks (told.insert fd want) (fd, eventsFor want.1 want.2) := by
  rw [Asks, Finmap.lookup_insert]
  rfl

/-! ## What a call does -/

section Steps

variable {s : State} (h : Registers s)

include h

theorem registers_add {fd : Int} (hfd : fd ∉ s.told) (r w : Bool) :
    Registers { poller := (s.poller.add fd r w).1, told := s.told.insert fd (r, w) } := by
  have hnone := h.index_none hfd
  rw [add_succeeds hnone]
  refine ⟨h.indexed.push (a := { fd := fd, events := eventsFor r w }) hnone, fun fd' => ?_, ?_⟩
  · rw [Finmap.mem_insert, h.told, List.map_append, List.mem_append, List.map_singleton,
      List.mem_singleton, Or.comm]
  · dsimp only
    rw [List.map_append, List.forall_mem_append]
    refine ⟨fun i hi => (h.asks i hi).insert ?_, ?_⟩
    · obtain ⟨entry, hentry, rfl⟩ := List.mem_map.mp hi
      rintro rfl
      exact hfd ((h.told _).mpr (List.mem_map_of_mem hentry))
    · intro i hi
      rw [List.map_singleton, List.mem_singleton] at hi
      rw [hi]
      exact Asks.told fd (r, w)

theorem registers_modify {fd : Int} (hfd : fd ∈ s.told) (r w : Bool) :
    Registers { poller := (s.poller.modify fd r w).1, told := s.told.insert fd (r, w) } := by
  obtain ⟨slot, hslot⟩ := h.index_some hfd
  rw [modify_succeeds hslot]
  have hkeys : (s.poller.fds.modify slot fun entry =>
      { entry with events := eventsFor r w }).map PollFd.fd = s.poller.fds.map PollFd.fd :=
    Indexes.map_modify _ _ fun _ => rfl
  refine ⟨h.indexed.modify slot fun _ => rfl, fun fd' => ?_, fun i hi => ?_⟩
  · rw [hkeys, Finmap.mem_insert, ← h.told]
    exact or_iff_right_of_imp fun heq => heq ▸ hfd
  · obtain ⟨entry, hentry, rfl⟩ := List.mem_map.mp hi
    have hcases := h.indexed.of_mem_modify hslot
      (f := fun entry => { entry with events := eventsFor r w }) (fun _ => rfl) hentry
    rcases hcases with ⟨rfl, old, rfl⟩ | ⟨hne, hold⟩
    · exact Asks.told _ (r, w)
    · exact (h.asks _ (List.mem_map_of_mem hold)).insert hne

theorem registers_remove {fd : Int} (hfd : fd ∈ s.told) :
    Registers { poller := (s.poller.remove fd).1, told := s.told.erase fd } := by
  obtain ⟨slot, hslot⟩ := h.index_some hfd
  obtain ⟨last, hlast, hremove⟩ := remove_succeeds h.indexed hslot
  rw [hremove]
  have hindexed := h.indexed.swapRemove hslot hlast
  -- the index forgets one key only
  have hknown : ∀ fd', fd' ∈ (s.poller.fds.set slot last).dropLast.map PollFd.fd
      ↔ fd' ≠ fd ∧ fd' ∈ s.poller.fds.map PollFd.fd := by
    intro fd'
    rw [← hindexed.isSome_iff, ← h.indexed.isSome_iff]
    by_cases hfd' : fd' = fd
    · subst hfd'
      simp
    · rw [Function.update_of_ne hfd']
      by_cases hl : fd' = last.fd
      · subst hl
        have hend : (s.poller.index last.fd).isSome = true :=
          (h.indexed.isSome_iff _).mpr (List.mem_map_of_mem (List.mem_of_getElem? hlast))
        simp [hfd', hend]
      · rw [Function.update_of_ne hl]
        simp [hfd']
  refine ⟨hindexed, fun fd' => ?_, fun i hi => ?_⟩
  · rw [Finmap.mem_erase, h.told]
    exact (hknown fd').symm
  · obtain ⟨entry, hentry, rfl⟩ := List.mem_map.mp hi
    have hold : entry ∈ s.poller.fds := by
      rcases List.mem_or_eq_of_mem_set (List.mem_of_mem_dropLast hentry) with hmem | rfl
      · exact hmem
      · exact List.mem_of_getElem? hlast
    exact (h.asks _ (List.mem_map_of_mem hold)).erase
      ((hknown _).mp (List.mem_map_of_mem hentry)).1

theorem registers_wait (call : PollCall) :
    Registers { s with poller := (s.poller.wait call).1 } := by
  obtain ⟨hinterest, hindex⟩ := s.poller.wait_interest call
  have hkeys : (s.poller.wait call).1.fds.map PollFd.fd = s.poller.fds.map PollFd.fd := by
    have hfst := congrArg (List.map Prod.fst) hinterest
    rwa [List.map_map, List.map_map] at hfst
  refine ⟨fun fd slot => ?_, fun fd => ?_, ?_⟩
  · rw [hindex, h.indexed fd slot, ← List.getElem?_map, ← List.getElem?_map, hkeys]
  · rw [hkeys]
    exact h.told fd
  · rw [hinterest]
    exact h.asks

theorem registers_step {a : Act} {s' : State} (hs : step s a = some s') : Registers s' := by
  cases a with
  | add fd r w =>
      cases hs
      -- whether a call succeeds is whether the descriptor was told
      by_cases hfd : fd ∈ s.told
      · rw [add_fails ((h.isSome_iff fd).mpr hfd)]
        exact h
      · have hnext := registers_add h hfd r w
        rw [add_succeeds (h.index_none hfd)] at hnext ⊢
        exact hnext
  | modify fd r w =>
      cases hs
      by_cases hfd : fd ∈ s.told
      · obtain ⟨slot, hslot⟩ := h.index_some hfd
        have hnext := registers_modify h hfd r w
        rw [modify_succeeds hslot] at hnext ⊢
        exact hnext
      · rw [modify_fails (h.index_none hfd)]
        exact h
  | remove fd =>
      cases hs
      by_cases hfd : fd ∈ s.told
      · obtain ⟨slot, hslot⟩ := h.index_some hfd
        obtain ⟨last, -, hremove⟩ := remove_succeeds h.indexed hslot
        have hnext := registers_remove h hfd
        rw [hremove] at hnext ⊢
        exact hnext
      · rw [remove_fails (h.index_none hfd)]
        exact h
  | wait call =>
      cases hs
      exact registers_wait h call

end Steps

theorem registers_reachable {s : State} (h : system.Reachable s) : Registers s := by
  refine h.invariant (I := Registers) ?_ fun _ _ _ hr _ hs => registers_step hr hs
  rintro s rfl
  exact ⟨Indexes.nil, fun fd => iff_of_false Finmap.notMem_empty List.not_mem_nil, by simp⟩

/-! ## What is reported -/

/-- `poll` reports what it was asked for, and errors unasked. -/
def Contract (entry : PollFd) : Prop :=
  (entry.revents &&& POLLIN ≠ 0 → entry.events &&& POLLIN ≠ 0)
    ∧ (entry.revents &&& POLLOUT ≠ 0 → entry.events &&& POLLOUT ≠ 0)

theorem eventsFor_in (r w : Bool) : eventsFor r w &&& POLLIN ≠ 0 ↔ r = true := by
  cases r <;> cases w <;> decide

theorem eventsFor_out (r w : Bool) : eventsFor r w &&& POLLOUT ≠ 0 ↔ w = true := by
  cases r <;> cases w <;> decide

/-- **An event is one that was waited for**: it is about a descriptor that is registered, and
about nothing that the poller was not told. -/
theorem wait_respects {s : State} (h : Registers s) {call : PollCall}
    (hpoll : ∀ entry ∈ (s.poller.wait call).1.fds, Contract entry) {event : ReadyEvent}
    (he : event ∈ (s.poller.wait call).2.2) :
    ∃ want, s.told.lookup event.fd = some want
      ∧ EventLoop.Respects event.toReadyEvent want := by
  have hafter := registers_wait h call
  obtain ⟨entry, hentry, rfl⟩ :
      ∃ entry ∈ (s.poller.wait call).1.fds, readyEvent entry = event := by
    unfold wait at he ⊢
    split at he
    · exact absurd he List.not_mem_nil
    · rename_i hne
      rw [if_neg hne]
      cases call with
      | interrupted => exact absurd he List.not_mem_nil
      | failed => exact absurd he List.not_mem_nil
      | returned revents =>
          obtain ⟨entry, hentry, hevent⟩ := List.mem_map.mp he
          exact ⟨entry, List.mem_of_mem_filter hentry, hevent⟩
  -- the entry asks for what was told last, and `poll` reports no more
  obtain ⟨want, hwant, hevents⟩ := Option.map_eq_some_iff.mp
    (hafter.asks _ (List.mem_map_of_mem hentry))
  obtain ⟨hin, hout⟩ := hpoll entry hentry
  have hevents' : eventsFor want.1 want.2 = entry.events := hevents
  refine ⟨want, hwant, fun hread => ?_, fun hwrite => ?_⟩
  · exact (eventsFor_in want.1 want.2).mp (hevents' ▸ hin (of_decide_eq_true hread))
  · exact (eventsFor_out want.1 want.2).mp (hevents' ▸ hout (of_decide_eq_true hwrite))

/--
**The poller is a map from descriptors to interest.** Whatever calls were made: no
descriptor is in the vector twice, the index gives the slot of each that is there and
nothing else, and the entries are those that were told, with the events they were told
last. A call is successful when it should be, and changes nothing otherwise.
-/
theorem poller_implements_map {s : State} (h : system.Reachable s) :
    (s.poller.fds.map PollFd.fd).Nodup
      ∧ (∀ fd slot, s.poller.index fd = some slot ↔ s.poller.fds[slot]?.map PollFd.fd = some fd)
      ∧ (∀ fd, fd ∈ s.poller.fds.map PollFd.fd ↔ fd ∈ s.told)
      ∧ s.poller.size = s.told.keys.card
      ∧ (∀ entry ∈ s.poller.fds, ∃ want, s.told.lookup entry.fd = some want
          ∧ entry.events = eventsFor want.1 want.2)
      ∧ ∀ fd r w,
        ((s.poller.add fd r w).2 = true ↔ fd ∉ s.told)
          ∧ ((s.poller.modify fd r w).2 = true ↔ fd ∈ s.told)
          ∧ ((s.poller.remove fd).2 = true ↔ fd ∈ s.told)
          ∧ ((s.poller.add fd r w).2 = false → (s.poller.add fd r w).1 = s.poller)
          ∧ ((s.poller.modify fd r w).2 = false → (s.poller.modify fd r w).1 = s.poller)
          ∧ ((s.poller.remove fd).2 = false → (s.poller.remove fd).1 = s.poller) := by
  have hr := registers_reachable h
  have hnodup := hr.indexed.nodup
  refine ⟨hnodup, hr.indexed, fun fd => (hr.told fd).symm, ?_, ?_, ?_⟩
  · -- no descriptor is there twice, so entries are counted like descriptors
    have hkeys : s.told.keys = (s.poller.fds.map PollFd.fd).toFinset := by
      ext fd
      rw [Finmap.mem_keys, hr.told, List.mem_toFinset]
    rw [hkeys, List.toFinset_card_of_nodup hnodup, List.length_map]
    rfl
  · intro entry hentry
    obtain ⟨want, hwant, hevents⟩ := Option.map_eq_some_iff.mp
      (hr.asks _ (List.mem_map_of_mem hentry))
    exact ⟨want, hwant, hevents.symm⟩
  · intro fd r w
    refine ⟨?_, ?_, ?_, add_false, modify_false, remove_false⟩
    · by_cases hfd : fd ∈ s.told
      · simp [add_fails ((hr.isSome_iff fd).mpr hfd), hfd]
      · simp [add_succeeds (hr.index_none hfd), hfd]
    · by_cases hfd : fd ∈ s.told
      · obtain ⟨slot, hslot⟩ := hr.index_some hfd
        simp [modify_succeeds hslot, hfd]
      · simp [modify_fails (hr.index_none hfd), hfd]
    · by_cases hfd : fd ∈ s.told
      · obtain ⟨slot, hslot⟩ := hr.index_some hfd
        obtain ⟨last, -, hremove⟩ := remove_succeeds hr.indexed hslot
        simp [hremove, hfd]
      · simp [remove_fails (hr.index_none hfd), hfd]

/-- Three descriptors, of which the first leaves and the last is modified in its new place. -/
def threeDescriptors : List Act :=
  [.add 5 true false, .add 7 true false, .add 9 true true, .remove 5, .modify 9 false true,
    .wait (.returned [4, 1])]

theorem poller_implements_map_moved :
    ∃ s : State, s.poller.fds = [{ fd := 9, events := 4, revents := 4 },
        { fd := 7, events := 1, revents := 1 }]
      ∧ s.poller.index 9 = some 0 ∧ (s.poller.remove 5).2 = false
      ∧ (s.poller.remove 5).1 = s.poller := by
  obtain ⟨s, hreach, hfds, hindex, hremove⟩ := System.exists_reachableBy
    (p := fun s : State => s.poller.fds = [{ fd := 9, events := 4, revents := 4 },
        { fd := 7, events := 1, revents := 1 }]
      ∧ s.poller.index 9 = some 0 ∧ (s.poller.remove 5).2 = false)
    (show system.Reachable _ from .init rfl) threeDescriptors (by decide +kernel)
    (by decide +kernel)
  obtain ⟨-, -, -, -, -, hcalls⟩ := poller_implements_map hreach
  exact ⟨s, hfds, hindex, hremove, (hcalls 5 false false).2.2.2.2.2 hremove⟩

end KvStore.Net.Polling
