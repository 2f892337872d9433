import KvStore.Lib.Lines
import KvStore.Proof.Replies

/-!
# Reading a stream of replies

A client that sends many lines at once gets one stream of bytes back. It is cut at the
newlines, since every reply is one line, and every piece is read as the reply to the line
in its place: `decode` does that. As long as nobody stores the value `nil`, it gives back
what became of the lines.
-/

namespace KvStore.Dialogue

open Lib Wal Protocol Txn
open Sessions (Outcome Event Values SessionValues)
open Repl (ascii newline)

variable {cfg : StoreConfig}

/-! ## What is said -/

variable {ι : Type}

/-- Texts from outside of the program, of the operating system and of the replicator, have no
newline. -/
def Plain (w : World) : Prop :=
  (∀ line ∈ w.replicator, newline ∉ line) ∧ newline ∉ ascii w.rewriting.result.error

instance (w : World) : Decidable (Plain w) := inferInstanceAs (Decidable (_ ∧ _))

/-- A line has no newline, since lines are what is between newlines. -/
def Spoken : Event ι → Prop
  | .line _ line w => newline ∉ line ∧ Plain w
  | _ => True

instance : (e : Event ι) → Decidable (Spoken e)
  | .line _ line w => inferInstanceAs (Decidable (newline ∉ line ∧ Plain w))
  | .connect _ => inferInstanceAs (Decidable True)
  | .disconnect _ => inferInstanceAs (Decidable True)

/-- The value that a line sets. -/
def valueOf (line : Bytes) : Option Bytes :=
  if (parse line).type = .set then some (parse line).value else none

/-- No line of the event sets the value. -/
def Avoids (value : Bytes) : Event ι → Prop
  | .line _ line _ => valueOf line ≠ some value
  | _ => True

instance (value : Bytes) : (e : Event ι) → Decidable (Avoids value e)
  | .line _ line _ => inferInstanceAs (Decidable (valueOf line ≠ some value))
  | .connect _ => inferInstanceAs (Decidable True)
  | .disconnect _ => inferInstanceAs (Decidable True)

/-- What a line sets has the property. -/
def Sets (P : Bytes → Prop) : Event ι → Prop
  | .line _ line _ => ∀ value ∈ valueOf line, P value
  | _ => True

/-- What a spoken line sets has no newline. -/
theorem sets_of_spoken {e : Event ι} (h : Spoken e) : Sets (fun v => newline ∉ v) e := by
  cases e with
  | line i line w =>
      intro value hvalue
      unfold valueOf at hvalue
      split at hvalue
      · cases hvalue
        exact (unbroken_parse h.1).1
      · exact absurd hvalue (by simp)
  | connect i => trivial
  | disconnect i => trivial

theorem sets_of_avoids {e : Event ι} {avoided : Bytes} (h : Spoken e) (havoids : Avoids avoided e) :
    Sets (fun v => newline ∉ v ∧ v ≠ avoided) e := by
  have hplain := sets_of_spoken h
  cases e with
  | line i line w =>
      intro value hvalue
      refine ⟨hplain value hvalue, ?_⟩
      rintro rfl
      exact havoids hvalue
  | connect i => trivial
  | disconnect i => trivial

/-- What one session was sent and has answered. -/
structure Traffic where
  lines : List Bytes := []
  /-- What became of them. -/
  results : List Result := []
  replies : List Bytes := []
  deriving DecidableEq, Repr

/-- The bytes that the client of the session gets. -/
def Traffic.stream (t : Traffic) : Bytes := t.replies.flatten

variable [DecidableEq ι]

/-- A store with its sessions, and what each of them was sent and told. -/
structure State (cfg : StoreConfig) (ι : Type) where
  store : Store cfg
  sessions : ι → Option Session := fun _ => none
  traffic : ι → Traffic := fun _ => {}

/-- A client connects, sends a line, or is gone. -/
def step (s : State cfg ι) : Event ι → Option (State cfg ι)
  | .connect i =>
      match s.sessions i with
      | none =>
          some
            { s with
              sessions := Function.update s.sessions i (some {})
              traffic := Function.update s.traffic i {} }
      | some _ => none
  | .line i line w =>
      match s.sessions i with
      | none => none
      | some session =>
          let r := session.handleLine s.store line w
          let t := s.traffic i
          match r.reply with
          | .ok text =>
              some
                { store := r.store
                  sessions := Function.update s.sessions i (some r.session)
                  traffic := Function.update s.traffic i
                    { lines := t.lines ++ [line]
                      results := t.results ++ (outcome session s.store line w).toOption.toList
                      replies := t.replies ++ [text] } }
          | .error _ =>
              -- the exception ends the connection, and the session with it
              some
                { store := r.session.destroy r.store
                  sessions := Function.update s.sessions i none
                  traffic := Function.update s.traffic i { t with lines := t.lines ++ [line] } }
  | .disconnect i =>
      match s.sessions i with
      | none => none
      | some session =>
          some
            { s with
              store := session.destroy s.store
              sessions := Function.update s.sessions i none }

/-- The sessions of a store that has nothing in it yet. -/
def system (cfg : StoreConfig) (ι : Type) [DecidableEq ι] : System (State cfg ι) (Event ι) where
  init s := ∃ st : Store cfg, (∀ key, st.map.contents key = none) ∧ s = { store := st }
  step := step

/-! ### What a session is told -/

variable {P : Bytes → Prop}

/-- What became of a line: what can, in one line, and with a value that has the property. -/
structure ResultOfLine (P : Bytes → Prop) (line : Bytes) (r : Result) : Prop where
  kind : r.Of (parse line).type
  plain : newline ∉ r.quoted
  value : ∀ v, r = .answer (.found (some v)) → P v

/-- A result that quotes nothing. -/
theorem ResultOfLine.closed {line : Bytes} {r : Result} (hkind : r.Of (parse line).type)
    (hquoted : r.quoted = []) (hvalue : ∀ v, r ≠ .answer (.found (some v))) :
    ResultOfLine P line r :=
  ⟨hkind, by rw [hquoted]; exact List.not_mem_nil, fun v hv => absurd hv (hvalue v)⟩

/-- A value that was found. -/
theorem ResultOfLine.found (hP : ∀ v, P v → newline ∉ v) {line : Bytes}
    (htype : (parse line).type = .get)
    {contents : Bytes → Option Bytes} (hcontents : Values P contents) (key : Bytes) :
    ResultOfLine P line (.answer (.found (contents key))) := by
  refine ⟨htype ▸ .found _, ?_, fun v hv => ?_⟩
  · cases hvalue : contents key with
    | none => exact List.not_mem_nil
    | some value => exact hP value (hcontents key value hvalue)
  · simp only [Result.answer.injEq, Outcome.found.injEq] at hv
    exact hcontents key v hv

theorem resultOfLine_compaction {line : Bytes} (htype : (parse line).type = .compact) {w : World}
    (hw : Plain w) (st : Store cfg) :
    ResultOfLine P line (.ofCompaction (st.compact w.rewriting).2) := by
  have herror : newline ∉ ascii (st.compact w.rewriting).2.error := by
    unfold Store.compact
    split
    · exact hw.2
    · show newline ∉ ascii "no write-ahead log configured"
      decide
  unfold Result.ofCompaction
  split
  · exact .closed (htype ▸ .compacted _ _ _) rfl (by simp)
  · exact ⟨htype ▸ .compactionFailed _, herror, by simp⟩

section Line

variable {session : Session} {st : Store cfg}

/-- Command by command, in and out of a transaction. -/
theorem resultOfLine_of_outcome (hP : ∀ v, P v → newline ∉ v) (hst : Values P st.map.contents)
    (hsession : SessionValues P session) {line : Bytes} (hline : newline ∉ line) {w : World}
    (hw : Plain w) {r : Result} (hr : outcome session st line w = .ok r) :
    ResultOfLine P line r := by
  have hdone {type : CommandType} (htype : (parse line).type = type)
      (hmem : type ∈ [CommandType.set, .del, .begin, .quit]) : ResultOfLine P line (.answer .ok) :=
    .closed (htype ▸ .ok hmem) rfl (by simp)
  have hnot {type : CommandType} (htype : (parse line).type = type)
      (hmem : type ∈ [CommandType.commit, .rollback]) :
        ResultOfLine P line (.answer .notInTransaction) :=
    .closed (htype ▸ .notInTransaction hmem) rfl (by simp)
  -- a write that raises an exception has no result
  have hwritten {type : CommandType} (htype : (parse line).type = type)
      (hmem : type ∈ [CommandType.set, .del, .begin, .quit]) {α : Type} {u : Except LogError α}
      (hu : u.map (fun _ => Result.answer .ok) = .ok r) : ResultOfLine P line r := by
    cases u with
    | error e => exact absurd hu (by simp [Except.map])
    | ok _ =>
        cases hu
        exact hdone htype hmem
  unfold outcome at hr
  dsimp only at hr
  split at hr
  · rename_i hguard
    cases hr
    exact .closed (.readOnlyWrite (by simpa using hguard.2)) rfl (by simp)
  split at hr
  · rename_i hguard
    cases hr
    exact .closed (hguard.2 ▸ .readOnlyCompact) rfl (by simp)
  revert hr
  cases htype : (parse line).type with
  | set =>
      cases session.transaction with
      | none => exact hwritten htype (by decide)
      | some t =>
          rintro ⟨⟩
          exact hdone htype (by decide)
  | del =>
      cases session.transaction with
      | none => exact hwritten htype (by decide)
      | some t =>
          rintro ⟨⟩
          exact hdone htype (by decide)
  | get =>
      cases htxn : session.transaction with
      | none =>
          rintro ⟨⟩
          exact .found hP htype hst _
      | some t =>
          rintro ⟨⟩
          exact .found hP htype (hst.runUpdates (hsession t htxn)) _
  | stats =>
      rintro ⟨⟩
      exact ⟨htype ▸ .stats _, newline_not_mem_statsLine st hw.1, by simp⟩
  | compact =>
      rintro ⟨⟩
      exact resultOfLine_compaction htype hw st
  | begin =>
      cases session.transaction with
      | none =>
          rintro ⟨⟩
          exact hdone htype (by decide)
      | some t =>
          rintro ⟨⟩
          exact .closed (htype ▸ .alreadyInTransaction) rfl (by simp)
  | commit =>
      cases session.transaction with
      | none =>
          rintro ⟨⟩
          exact hnot htype (by decide)
      | some t =>
          rintro ⟨⟩
          split
          · exact .closed (htype ▸ .committed _) rfl (by simp)
          · exact .closed (htype ▸ .commitFailed) rfl (by simp)
  | rollback =>
      cases session.transaction with
      | none =>
          rintro ⟨⟩
          exact hnot htype (by decide)
      | some t =>
          rintro ⟨⟩
          exact .closed (htype ▸ .rolledBack _) rfl (by simp)
  | quit =>
      rintro ⟨⟩
      exact hdone htype (by decide)
  | invalid =>
      rintro ⟨⟩
      -- the complaint quotes the line
      exact ⟨htype ▸ .invalid _, (unbroken_parse hline).2, by simp⟩

end Line

/-! ### Every dialogue -/

/-- The replies are the texts of the results, and the results those of the lines. -/
structure RepliesAnswerLines (P : Bytes → Prop) (t : Traffic) : Prop where
  replies : t.replies = t.results.map Result.text
  results : List.Forall₂ (ResultOfLine P) (t.lines.take t.results.length) t.results

theorem repliesAnswerLines_nil : RepliesAnswerLines P {} := ⟨rfl, .nil⟩

theorem RepliesAnswerLines.told {t : Traffic} (h : RepliesAnswerLines P t) {r : Result}
    (hr : r ∈ t.results) :
    ∃ line, ResultOfLine P line r := by
  have hboth : List.Forall₂ (fun r line =>
    (∃ line, ResultOfLine P line r) ∧ ResultOfLine P line r) t.results
      (t.lines.take t.results.length) :=
    h.results.flip.imp fun r line htold => ⟨⟨line, htold⟩, htold⟩
  exact ((List.forall₂_and_left _ _).mp hboth).1 r hr

/-- One more line that was answered. -/
theorem RepliesAnswerLines.answered {t : Traffic} (h : RepliesAnswerLines P t)
    (hlevel : t.lines.length = t.results.length)
    {line : Bytes} {r : Result} (hr : ResultOfLine P line r) :
    RepliesAnswerLines P
      { lines := t.lines ++ [line], results := t.results ++ [r]
        replies := t.replies ++ [r.text] } := by
  -- every line before it has its result, so nothing is cut off
  have hall := h.results
  rw [← hlevel, List.take_length] at hall
  refine ⟨by simp [h.replies], ?_⟩
  have htake : (t.lines ++ [line]).take (t.results ++ [r]).length = t.lines ++ [line] := by
    refine List.take_of_length_le ?_
    simp [hlevel]
  dsimp only
  rw [htake]
  exact List.rel_append hall (.cons hr .nil)

/-- One more that was not. -/
theorem RepliesAnswerLines.unanswered {t : Traffic} (h : RepliesAnswerLines P t)
    (hlevel : t.lines.length = t.results.length)
    (line : Bytes) : RepliesAnswerLines P { t with lines := t.lines ++ [line] } := by
  refine ⟨h.replies, ?_⟩
  dsimp only
  rw [List.take_append_of_le_length hlevel.ge]
  exact h.results

/-- Every value has the property, and every client has been told what became of its lines. -/
structure AnswersAndValues (P : Bytes → Prop) (s : State cfg ι) : Prop where
  contents : Values P s.store.map.contents
  pending : ∀ i, ∀ session ∈ s.sessions i, SessionValues P session
  traffic : ∀ i, RepliesAnswerLines P (s.traffic i)
  /-- As long as a session is there, all its lines have been answered. -/
  level : ∀ i, (s.sessions i).isSome = true →
    (s.traffic i).lines.length = (s.traffic i).results.length

section AnswersAndValues

variable {s s' : State cfg ι}

/-- One session and its traffic are given another value, and the store is too. -/
theorem AnswersAndValues.update (h : AnswersAndValues P s) (i : ι) {st : Store cfg}
    (hst : Values P st.map.contents)
    {session : Option Session} (hsession : ∀ x ∈ session, SessionValues P x) {t : Traffic}
    (ht : RepliesAnswerLines P t)
    (hlevel : session.isSome = true → t.lines.length = t.results.length) :
    AnswersAndValues P
      { store := st
        sessions := Function.update s.sessions i session
        traffic := Function.update s.traffic i t } := by
  refine ⟨hst, fun j x hx => ?_, fun j => ?_, fun j hj => ?_⟩
  all_goals dsimp only at *
  all_goals by_cases hji : j = i
  all_goals first | subst hji | skip
  · rw [Function.update_self] at hx
    exact hsession x hx
  · rw [Function.update_of_ne hji] at hx
    exact h.pending j x hx
  · rw [Function.update_self]
    exact ht
  · rw [Function.update_of_ne hji]
    exact h.traffic j
  · rw [Function.update_self] at hj ⊢
    exact hlevel hj
  · rw [Function.update_of_ne hji] at hj ⊢
    exact h.level j hj

theorem answersAndValues_step (hP : ∀ v, P v → newline ∉ v) (h : AnswersAndValues P s) {e : Event ι}
    (hspoken : Spoken e)
    (hsets : Sets P e) (hs : step s e = some s') : AnswersAndValues P s' := by
  cases e with
  | connect i =>
      rw [step] at hs
      split at hs
      · cases hs
        refine h.update i h.contents ?_ repliesAnswerLines_nil fun _ => rfl
        rintro x ⟨⟩
        exact Sessions.sessionValues_none rfl
      · exact absurd hs (by simp)
  | line i line w =>
      rw [step] at hs
      split at hs
      · exact absurd hs (by simp)
      · rename_i session hi
        have hsession := h.pending i session hi
        have hlevel := h.level i (by rw [hi]; rfl)
        have hvalue : (parse line).type = .set → P (parse line).value :=
          fun htype => hsets _ (if_pos htype)
        obtain ⟨hst', hsession'⟩ := Sessions.handleLine_values h.contents hsession hvalue w
        have hreply := handleLine_reply session s.store line w
        dsimp only at hs
        -- whether there is a reply is what `outcome` says, by `handleLine_reply`
        cases hout : outcome session s.store line w with
        | ok r =>
            rw [hout] at hs hreply
            rw [hreply] at hs
            cases hs
            refine h.update i hst' ?_ ((h.traffic i).answered hlevel
              (resultOfLine_of_outcome hP h.contents hsession hspoken.1 hspoken.2 hout)) fun _ => ?_
            · rintro x ⟨⟩
              exact hsession'
            · simp [hlevel, Except.toOption]
        | error e =>
            rw [hout] at hs hreply
            rw [hreply] at hs
            cases hs
            exact h.update i (Sessions.destroy_values hst' _) (by simp)
              ((h.traffic i).unanswered hlevel line) (by simp)
  | disconnect i =>
      rw [step] at hs
      split at hs
      · exact absurd hs (by simp)
      · rename_i session hi
        cases hs
        have hkept : AnswersAndValues P
            { store := session.destroy s.store
              sessions := Function.update s.sessions i none
              traffic := Function.update s.traffic i (s.traffic i) } :=
          h.update i (Sessions.destroy_values h.contents session) (by simp) (h.traffic i) (by simp)
        -- what a session was told stays when it ends
        rw [Function.update_eq_self] at hkept
        exact hkept

/-- **Every run** in which every line that sets a value sets one with the property. -/
theorem answersAndValues_run (hP : ∀ v, P v → newline ∉ v) {st : Store cfg}
    (hempty : ∀ key, st.map.contents key = none) {events : List (Event ι)}
    (hspoken : ∀ e ∈ events, Spoken e) (hsets : ∀ e ∈ events, Sets P e)
    (hrun : (system cfg ι).run { store := st } events = some s) : AnswersAndValues P s := by
  have hstart : AnswersAndValues P ({ store := st } : State cfg ι) :=
    ⟨fun key value hvalue => absurd ((hempty key).symm.trans hvalue) (by simp), by simp,
      fun _ => repliesAnswerLines_nil, fun _ _ => rfl⟩
  exact System.run_invariant_by (I := AnswersAndValues P) (p := fun e => Spoken e ∧ Sets P e)
    (fun _ _ _ h hp hs => answersAndValues_step hP h hp.1 hp.2 hs) hstart
    (fun e he => ⟨hspoken e he, hsets e he⟩) hrun

end AnswersAndValues

/-! ## The stream -/

/-- What became of the lines, by the stream that a client got for them. -/
def decode (lines : List Bytes) (stream : Bytes) : List Result :=
  List.zipWith (fun line body => decodeReply (parse line).type (body ++ [newline])) lines
    (splitLines newline stream).1

/-- Cut at the newline, a reply is a line again. -/
theorem OneLine.eq_dropLast {text : Bytes} (h : OneLine text) :
    text = text.dropLast ++ [newline] ∧ newline ∉ text.dropLast := by
  obtain ⟨body, rfl, hbody⟩ := h
  rw [List.dropLast_concat]
  exact ⟨rfl, hbody⟩

theorem zipWith_map_eq {α β γ : Type} {f : α → β → γ} {g : γ → β} {as : List α} {cs : List γ}
    (h : List.Forall₂ (fun a c => f a (g c) = c) (as.take cs.length) cs) :
    List.zipWith f as (cs.map g) = cs := by
  induction cs generalizing as with
  | nil => rw [List.map_nil, List.zipWith_nil_right]
  | cons c cs ih =>
      cases as with
      | nil => cases h
      | cons a as =>
          rw [List.length_cons, List.take_succ_cons, List.forall₂_cons] at h
          rw [List.map_cons, List.zipWith_cons_cons, h.1, ih h.2]

theorem splitLines_texts {rs : List Result} (h : ∀ r ∈ rs, OneLine r.text) :
    (splitLines newline (rs.map Result.text).flatten).1 = rs.map fun r => r.text.dropLast := by
  have hjoin : (rs.map Result.text).flatten
      = (rs.map fun r => r.text.dropLast).flatMap fun body => body ++ [newline] := by
    rw [List.flatMap_map, List.flatMap_def]
    exact congrArg List.flatten (List.map_congr_left fun r hr => (h r hr).eq_dropLast.1)
  rw [hjoin, splitLines_join]
  intro body hbody
  obtain ⟨r, hr, rfl⟩ := List.mem_map.mp hbody
  exact (h r hr).eq_dropLast.2

theorem RepliesAnswerLines.oneLine {t : Traffic} (h : RepliesAnswerLines P t) :
    ∀ r ∈ t.results, OneLine r.text := by
  intro r hr
  obtain ⟨line, htold⟩ := h.told hr
  exact Result.oneLine_text htold.plain

theorem ResultOfLine.ne_nil {line : Bytes} {r : Result}
    (h : ResultOfLine (fun v => newline ∉ v ∧ v ≠ ascii "nil") line r) :
    r ≠ .answer (.found (some (ascii "nil"))) := fun heq => (h.value _ heq).2 rfl

/-- **Decoding gives the results back.** -/
theorem RepliesAnswerLines.decode {t : Traffic}
    (h : RepliesAnswerLines (fun v => newline ∉ v ∧ v ≠ ascii "nil") t) :
    decode t.lines t.stream = t.results := by
  unfold Dialogue.decode Traffic.stream
  rw [h.replies, splitLines_texts h.oneLine]
  refine zipWith_map_eq (h.results.imp fun line r htold => ?_)
  rw [← (Result.oneLine_text htold.plain).eq_dropLast.1]
  exact decodeReply_text htold.kind htold.ne_nil

/-- Two results of `GET` that look the same are the same. -/
theorem RepliesAnswerLines.found_eq {t t' : Traffic}
    (h : RepliesAnswerLines (fun v => newline ∉ v ∧ v ≠ ascii "nil") t)
    (h' : RepliesAnswerLines (fun v => newline ∉ v ∧ v ≠ ascii "nil") t') {a b : Option Bytes}
    (ha : Result.answer (.found a) ∈ t.results) (hb : Result.answer (.found b) ∈ t'.results)
    (htext : (Result.answer (.found a)).text = (Result.answer (.found b)).text) : a = b := by
  obtain ⟨_, hta⟩ := h.told ha
  obtain ⟨_, htb⟩ := h'.told hb
  have hdecode := decodeReply_text (.found a) hta.ne_nil
  rw [htext, decodeReply_text (.found b) htb.ne_nil] at hdecode
  simpa using hdecode.symm

/--
**Replies can be told apart.** Whatever lines the clients of a store that was empty send,
each reply is one line. And if no line sets the value `nil`, what became of the lines of a
client is what `decode` makes of them and of the bytes that the client got; in particular
no two `GET`s that found something different were given the same reply.
-/
theorem replies_decodable {st : Store cfg} (hempty : ∀ key, st.map.contents key = none)
    {events : List (Event ι)} (hspoken : ∀ e ∈ events, Spoken e) {s : State cfg ι}
    (hrun : (system cfg ι).run { store := st } events = some s) :
    (∀ i, ∀ reply ∈ (s.traffic i).replies, OneLine reply)
      ∧ (∀ i, (s.sessions i).isSome = true →
        (s.traffic i).results.length = (s.traffic i).lines.length)
      ∧ ((∀ e ∈ events, Avoids (ascii "nil") e) →
        (∀ i, decode (s.traffic i).lines (s.traffic i).stream = (s.traffic i).results)
          ∧ ∀ i j (n m : Nat) (a b : Option Bytes),
            (s.traffic i).results[n]? = some (.answer (.found a)) →
            (s.traffic j).results[m]? = some (.answer (.found b)) → a ≠ b →
            (s.traffic i).replies[n]? ≠ (s.traffic j).replies[m]?) := by
  have hplain := answersAndValues_run (P := fun v => newline ∉ v) (fun _ hv => hv) hempty hspoken
    (fun e he => sets_of_spoken (hspoken e he)) hrun
  refine ⟨fun i reply hreply => ?_, fun i hi => (hplain.level i hi).symm, fun havoids => ?_⟩
  · rw [(hplain.traffic i).replies] at hreply
    obtain ⟨r, hr, rfl⟩ := List.mem_map.mp hreply
    exact (hplain.traffic i).oneLine r hr
  · have hkept := answersAndValues_run (fun _ hv => hv.1) hempty hspoken
      (fun e he => sets_of_avoids (hspoken e he) (havoids e he)) hrun
    refine ⟨fun i => (hkept.traffic i).decode, fun i j n m a b ha hb hab heq => hab ?_⟩
    rw [(hkept.traffic i).replies, (hkept.traffic j).replies, List.getElem?_map, List.getElem?_map,
      ha, hb] at heq
    exact (hkept.traffic i).found_eq (hkept.traffic j) (List.mem_of_getElem? ha)
      (List.mem_of_getElem? hb) (Option.some.inj heq)

/-- One client stores what looks like a reply; the other reads it, and is refused a line. -/
def quoting : List (Event Bool) :=
  [.connect false, .connect true, .line false (ascii "GET a") {}, .line true (ascii "begin") {},
    .line true (ascii "SET a $nil") {}, .line true (ascii "GET a") {},
      .line true (ascii "COMMIT") {},
    .line false (ascii "GET a") {}, .line false (ascii "+OK") {}, .line false (ascii "DEL a") {}]

theorem replies_decodable_quoting :
    ∃ s, (system standalone Bool).run { store := {} } quoting = some s
      ∧ (s.traffic false).results
        = [.answer (.found none), .answer (.found (some (ascii "$nil"))),
          .invalid (ascii "unknown command '+OK'"), .answer .ok]
      ∧ (s.traffic false).stream = ascii "$nil\n$$nil\n-ERR unknown command '+OK'\n+OK\n"
      ∧ decode (s.traffic false).lines (s.traffic false).stream = (s.traffic false).results := by
  have hstate : (((system standalone Bool).run { store := {} } quoting).any fun s => decide
      ((s.traffic false).results
        = [.answer (.found none), .answer (.found (some (ascii "$nil"))),
          .invalid (ascii "unknown command '+OK'"), .answer .ok]
      ∧ (s.traffic false).stream = ascii "$nil\n$$nil\n-ERR unknown command '+OK'\n+OK\n"))
        = true := by
    decide +kernel
  obtain ⟨s, hrun, hs⟩ := (Option.any_eq_true ..).mp hstate
  obtain ⟨hresults, hstream⟩ := of_decide_eq_true hs
  have hempty : ∀ key, ({} : Store standalone).map.contents key = none := fun _ => rfl
  obtain ⟨-, -, hdecode⟩ := replies_decodable hempty (by decide : ∀ e ∈ quoting, Spoken e) hrun
  exact ⟨s, hrun, hresults, hstream, (hdecode (by decide)).1 false⟩

/-- A client asks for a key, after another has or has not stored `nil` under it. -/
def asking (stored : Bool) : List (Event Bool) :=
  [.connect false, .connect true]
    ++ (if stored then [.line true (ascii "SET a nil") {}] else [])
    ++ [.line false (ascii "GET a") {}]

/-- **Nothing can tell** the value `nil` from no value: the client sends and gets the same. -/
theorem nil_undecodable :
    (∀ stored, ∀ e ∈ asking stored, Spoken e)
      ∧ ∃ s s' : State standalone Bool,
        (system standalone Bool).run { store := {} } (asking true) = some s
          ∧ (system standalone Bool).run { store := {} } (asking false) = some s'
          ∧ (s.traffic false).lines = (s'.traffic false).lines
          ∧ (s.traffic false).stream = (s'.traffic false).stream
          ∧ (s.traffic false).results = [.answer (.found (some (ascii "nil")))]
          ∧ (s'.traffic false).results = [.answer (.found none)] := by
  have htraffic (stored : Bool) :
      (((system standalone Bool).run { store := {} } (asking stored)).any fun s => decide
        (s.traffic false
          = { lines := [ascii "GET a"]
              results := [.answer (.found (if stored then some (ascii "nil") else none))]
              replies := [ascii "$nil\n"] })) = true := by
    cases stored <;> decide +kernel
  refine ⟨by decide, ?_⟩
  obtain ⟨s, hrun, hs⟩ := (Option.any_eq_true ..).mp (htraffic true)
  obtain ⟨s', hrun', hs'⟩ := (Option.any_eq_true ..).mp (htraffic false)
  have ht := of_decide_eq_true hs
  have ht' := of_decide_eq_true hs'
  refine ⟨s, s', hrun, hrun', ?_, ?_, ?_, ?_⟩
  · rw [ht, ht']
  · rw [ht, ht']
    rfl
  · rw [ht]
    rfl
  · rw [ht']
    rfl

end KvStore.Dialogue
