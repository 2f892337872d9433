import KvStore.Proof.Values

/-!
# Reading a reply

What becomes of a line, said without its reply, and the text it is then told in. The text
is one line, whatever it quotes; and what became of the line is read off it
(`decodeReply`), if one knows the command.

But `$nil` stands for a key that is not there, and is also what a client is told that
finds the value `nil`.
-/

namespace KvStore.Dialogue

open Lib Wal Protocol Txn
open Sessions (Outcome)
open Repl (ascii newline)

variable {cfg : StoreConfig}

/-! ## What becomes of a line -/

/-- What there can be to say to a client. -/
inductive Result where
  /-- What the sessions are for. -/
  | answer (o : Outcome)
  | stats (line : Bytes)
  | compacted (records bytesBefore bytesAfter : Nat)
  | compactionFailed (error : Bytes)
  | commitFailed
  | readOnlyWrite
  | readOnlyCompact
  | invalid (error : Bytes)
  deriving DecidableEq, Repr

namespace Result

/-- The bytes a client gets. -/
def text : Result → Bytes
  | answer o => o.text
  | stats line => ascii "$" ++ line ++ ascii "\n"
  | compacted records bytesBefore bytesAfter =>
      ascii "$records=" ++ toDecimal records
        ++ ascii " bytes_before=" ++ toDecimal bytesBefore
        ++ ascii " bytes_after=" ++ toDecimal bytesAfter ++ ascii "\n"
  | compactionFailed error => ascii "-ERR compaction failed: " ++ error ++ ascii "\n"
  | commitFailed => ascii "-ERR commit failed; transaction still open\n"
  | readOnlyWrite => ascii "-ERR READONLY this node is a replica; write to the leader\n"
  | readOnlyCompact => ascii "-ERR READONLY a replica must not compact its log\n"
  | invalid error => ascii "-ERR " ++ error ++ ascii "\n"

/-- The part of it that is not the server's own words. -/
def quoted : Result → Bytes
  | answer (.found (some value)) => value
  | stats line => line
  | compactionFailed error => error
  | invalid error => error
  | _ => []

/-- What is said of a compaction. -/
def ofCompaction (r : CompactionResult) : Result :=
  if r.ok then compacted r.recordsWritten r.bytesBefore r.bytesAfter
  else compactionFailed (ascii r.error)

end Result

/--
What becomes of a line, said without its reply: a key is looked up in the contents of the
store, or in what the transaction would make of them. An exception of the log is no result.
-/
def outcome (session : Session) (st : Store cfg) (line : Bytes) (w : World) :
    Except LogError Result :=
  let cmd := parse line
  if cfg.readOnly ∧ (cmd.type = .set ∨ cmd.type = .del) then .ok .readOnlyWrite
  else if cfg.readOnly ∧ cmd.type = .compact then .ok .readOnlyCompact
  else
    match cmd.type, session.transaction with
    | .set, none => (st.set cmd.key cmd.value w.io).2.map fun _ => .answer .ok
    | .set, some _ => .ok (.answer .ok)
    | .del, none => (st.del cmd.key w.io).2.map fun _ => .answer .ok
    | .del, some _ => .ok (.answer .ok)
    | .get, none => .ok (.answer (.found (st.map.contents cmd.key)))
    | .get, some t => .ok (.answer (.found (runUpdates t.updates st.map.contents cmd.key)))
    | .stats, _ => .ok (.stats (st.statsLine w.replicator))
    | .compact, _ => .ok (.ofCompaction (st.compact w.rewriting).2)
    | .begin, none => .ok (.answer .ok)
    | .begin, some _ => .ok (.answer .alreadyInTransaction)
    | .commit, none => .ok (.answer .notInTransaction)
    | .commit, some t =>
        .ok (if (t.commit st w.io).2.2 then .answer (.committed t.pendingOperations)
          else .commitFailed)
    | .rollback, none => .ok (.answer .notInTransaction)
    | .rollback, some t => .ok (.answer (.rolledBack t.pendingOperations))
    | .quit, _ => .ok (.answer .ok)
    | .invalid, _ => .ok (.invalid cmd.error)

theorem valueReply_eq (value : Option Bytes) :
    Session.valueReply value = (Result.answer (.found value)).text := by
  cases value <;> rfl

/-- **The reply to a line is the text of what became of it.** -/
theorem handleLine_reply (session : Session) (st : Store cfg) (line : Bytes) (w : World) :
    (session.handleLine st line w).reply = (outcome session st line w).map Result.text := by
  unfold Session.handleLine outcome
  generalize parse line = cmd
  obtain ⟨type, key, value, error⟩ := cmd
  dsimp only
  split
  · rfl
  split
  · rfl
  cases type with
  | set =>
      unfold Session.write
      cases session.transaction with
      | none => cases (st.set key value w.io).2 <;> rfl
      | some t => rfl
  | del =>
      unfold Session.write
      cases session.transaction with
      | none => cases (st.del key w.io).2 <;> rfl
      | some t => rfl
  | get =>
      cases session.transaction with
      | none =>
          dsimp only
          rw [valueReply_eq, show (st.get key).2 = _ from ShardedMap.get_result st.map key]
          rfl
      | some t =>
          dsimp only
          rw [valueReply_eq, t.get_result st key]
          rfl
  | compact =>
      dsimp only
      unfold Result.ofCompaction
      split
      · rfl
      · rfl
  | begin => cases session.transaction <;> rfl
  | commit =>
      cases session.transaction with
      | none => rfl
      | some t =>
          dsimp only
          split
          · rename_i heq
            rw [heq]
            rfl
          · rename_i heq
            rw [heq]
            rfl
  | rollback => cases session.transaction <;> rfl
  | stats => rfl
  | quit => rfl
  | invalid => rfl

/-! ## Every reply is one line -/

/-- The only newline is the last byte. -/
def OneLine (text : Bytes) : Prop := ∃ body, text = body ++ [newline] ∧ newline ∉ body

theorem oneLine_append {front text : Bytes} (hfront : newline ∉ front) (h : OneLine text) :
    OneLine (front ++ text) := by
  obtain ⟨body, rfl, hbody⟩ := h
  refine ⟨front ++ body, (List.append_assoc ..).symm, ?_⟩
  rw [List.mem_append, not_or]
  exact ⟨hfront, hbody⟩

theorem oneLine_newline : OneLine (ascii "\n") := ⟨[], rfl, List.not_mem_nil⟩

/-- A text of the server's own, between two quotations. -/
theorem oneLine_quote {front quoted : Bytes} (hfront : newline ∉ front) (hquoted : newline ∉ quoted)
    {back : Bytes} (hback : OneLine back) : OneLine (front ++ quoted ++ back) := by
  rw [List.append_assoc]
  exact oneLine_append hfront (oneLine_append hquoted hback)

theorem newline_not_mem_toDecimal (n : Nat) : newline ∉ toDecimal n :=
  not_mem_toDecimal (by decide) n

/-- A text that quotes nothing. -/
theorem oneLine_closed {text : Bytes}
    (h : text.getLast? = some newline ∧ newline ∉ text.dropLast) : OneLine text :=
  ⟨text.dropLast, (List.dropLast_append_getLast? newline h.1).symm, h.2⟩

theorem Result.oneLine_text {r : Result} (h : newline ∉ r.quoted) : OneLine r.text := by
  cases r with
  | answer o =>
      cases o with
      | ok => exact oneLine_closed (by decide +kernel)
      | found value =>
          cases value with
          | none => exact oneLine_closed (by decide +kernel)
          | some value => exact oneLine_quote (by decide +kernel) h oneLine_newline
      | committed n =>
          exact oneLine_quote (by decide +kernel) (newline_not_mem_toDecimal n) oneLine_newline
      | rolledBack n =>
          exact oneLine_quote (by decide +kernel) (newline_not_mem_toDecimal n) oneLine_newline
      | alreadyInTransaction => exact oneLine_closed (by decide +kernel)
      | notInTransaction => exact oneLine_closed (by decide +kernel)
  | stats line => exact oneLine_quote (by decide +kernel) h oneLine_newline
  | compacted records bytesBefore bytesAfter =>
      simp only [text, List.append_assoc]
      refine oneLine_append (by decide +kernel) (oneLine_append (newline_not_mem_toDecimal _) ?_)
      refine oneLine_append (by decide +kernel) (oneLine_append (newline_not_mem_toDecimal _) ?_)
      exact oneLine_append (by decide +kernel)
        (oneLine_append (newline_not_mem_toDecimal _) oneLine_newline)
  | compactionFailed error => exact oneLine_quote (by decide +kernel) h oneLine_newline
  | commitFailed => exact oneLine_closed (by decide +kernel)
  | readOnlyWrite => exact oneLine_closed (by decide +kernel)
  | readOnlyCompact => exact oneLine_closed (by decide +kernel)
  | invalid error => exact oneLine_quote (by decide +kernel) h oneLine_newline

/-! ### What the replies quote -/

theorem newline_not_mem_upper {s : Bytes} (h : newline ∉ s) : newline ∉ upper s := by
  intro hmem
  obtain ⟨c, hc, heq⟩ := List.mem_map.mp hmem
  split at heq
  · rename_i hsmall
    -- a capital letter is not a newline
    have hle : (c - 32).toNat = c.toNat - 32 :=
      UInt8.toNat_sub_of_le _ _ (UInt8.le_trans (by decide) hsmall.1)
    have hnat := congrArg UInt8.toNat heq
    have h97 := UInt8.le_iff_toNat_le.mp hsmall.1
    have h10 : newline.toNat = 10 := rfl
    have h97' : (97 : UInt8).toNat = 97 := rfl
    omega
  · exact h (heq ▸ hc)

theorem not_mem_skipSpaces {b : UInt8} {s rest : Bytes} (h : b ∉ s)
    (hrest : skipSpaces s = some rest) :
    b ∉ rest := by
  unfold skipSpaces at hrest
  split at hrest
  · exact absurd hrest (by simp)
  · cases hrest
    exact fun hmem => h ((List.dropWhile_sublist _).mem hmem)

theorem newline_not_mem_append {a b : Bytes} (ha : newline ∉ a) (hb : newline ∉ b) :
    newline ∉ a ++ b := by
  rw [List.mem_append, not_or]
  exact ⟨ha, hb⟩

/-- Neither the value nor the complaint has a newline. -/
def Unbroken (cmd : ParsedCommand) : Prop := newline ∉ cmd.value ∧ newline ∉ cmd.error

/-- **A line without a newline** sets no value with one, and is refused in one line. -/
theorem unbroken_parse {line : Bytes} (h : newline ∉ line) : Unbroken (parse line) := by
  have htake {s : Bytes} (hs : newline ∉ s) {p : UInt8 → Bool} : newline ∉ s.takeWhile p :=
    fun hmem => hs ((List.takeWhile_sublist _).mem hmem)
  have hdrop {s : Bytes} (hs : newline ∉ s) {p : UInt8 → Bool} : newline ∉ s.dropWhile p :=
    fun hmem => hs ((List.dropWhile_sublist _).mem hmem)
  have hnil : newline ∉ ([] : Bytes) := List.not_mem_nil
  have hmissing : newline ∉ ascii "SET requires a value" := by decide +kernel
  have hverbOnly (type : CommandType) : Unbroken { type := type } := ⟨hnil, hnil⟩
  unfold parse
  split
  · exact ⟨hnil, by decide +kernel⟩
  rename_i line' hskip
  have hline := not_mem_skipSpaces h hskip
  have hverb := newline_not_mem_upper (htake hline (p := (· ≠ Repl.space)))
  dsimp only
  -- the verbs that take nothing
  refine iteInduction (fun _ => hverbOnly _) fun _ => ?_
  refine iteInduction (fun _ => hverbOnly _) fun _ => ?_
  refine iteInduction (fun _ => hverbOnly _) fun _ => ?_
  refine iteInduction (fun _ => hverbOnly _) fun _ => ?_
  refine iteInduction (fun _ => hverbOnly _) fun _ => ?_
  refine iteInduction (fun _ => hverbOnly _) fun _ => ?_
  -- an unknown verb is quoted
  refine iteInduction (fun _ => ?_) fun _ => ?_
  · exact ⟨hnil, newline_not_mem_append (newline_not_mem_append (by decide +kernel) hverb)
      (by decide +kernel)⟩
  cases hrest : skipSpaces (line'.dropWhile (· ≠ Repl.space)) with
  | none => exact ⟨hnil, newline_not_mem_append hverb (by decide +kernel)⟩
  | some rest =>
      have hrest := not_mem_skipSpaces (hdrop hline) hrest
      refine iteInduction (fun _ => ⟨hnil, hnil⟩) fun _ => ?_
      cases hvalue : skipSpaces (rest.dropWhile (· ≠ Repl.space)) with
      | none => exact ⟨hnil, hmissing⟩
      | some value => exact ⟨not_mem_skipSpaces (hdrop hrest) hvalue, hnil⟩

theorem newline_not_mem_statsLine (st : Store cfg) {replicator : Option Bytes}
    (h : ∀ line ∈ replicator, newline ∉ line) : newline ∉ st.statsLine replicator := by
  have hlock : newline ∉ ascii (lockModeName cfg.lockMode) := by
    cases cfg.lockMode <;> decide +kernel
  have hfsync : newline ∉ ascii (fsyncModeName cfg.fsyncMode) := by
    cases cfg.fsyncMode <;> decide +kernel
  unfold Store.statsLine
  refine newline_not_mem_append (newline_not_mem_append ?_ ?_) ?_
  · -- fixed words and numbers, in turn
    repeat' apply newline_not_mem_append
    all_goals first | decide +kernel | exact hlock | exact newline_not_mem_toDecimal _
  · split
    · repeat' apply newline_not_mem_append
      all_goals first | decide +kernel | exact hfsync | exact newline_not_mem_toDecimal _
    · decide +kernel
  · cases replicator with
    | none => decide +kernel
    | some line => exact newline_not_mem_append (by decide +kernel) (h line rfl)

/-! ## Decoding -/

/-- The number that a text starts with, and what is behind it. -/
def number (text : Bytes) : Nat × Bytes :=
  (ofDecimal (text.takeWhile isDigit), text.dropWhile isDigit)

/-- What a reply to a command says. -/
def decodeReply (type : CommandType) (reply : Bytes) : Result :=
  match type with
  | .set => if reply = ascii "+OK\n" then .answer .ok else .readOnlyWrite
  | .del => if reply = ascii "+OK\n" then .answer .ok else .readOnlyWrite
  | .get => .answer (.found (if reply = ascii "$nil\n" then none else some (reply.drop 1).dropLast))
  | .stats => .stats (reply.drop 1).dropLast
  | .compact =>
      if ascii "$records=" <+: reply then
        let records := number (reply.drop 9)
        let bytesBefore := number (records.2.drop 14)
        let bytesAfter := number (bytesBefore.2.drop 13)
        .compacted records.1 bytesBefore.1 bytesAfter.1
      else if ascii "-ERR compaction failed: " <+: reply then
        .compactionFailed (reply.drop 24).dropLast
      else .readOnlyCompact
  | .begin => .answer (if reply = ascii "+OK\n" then .ok else .alreadyInTransaction)
  | .commit =>
      if ascii "$committed=" <+: reply then .answer (.committed (number (reply.drop 11)).1)
      else if reply = ascii "-ERR no transaction in progress\n" then .answer .notInTransaction
      else .commitFailed
  | .rollback =>
      if ascii "$rolled_back=" <+: reply then .answer (.rolledBack (number (reply.drop 13)).1)
      else .answer .notInTransaction
  | .quit => .answer .ok
  | .invalid => .invalid (reply.drop 5).dropLast

/-- The results a command can have. -/
inductive Result.Of : CommandType → Result → Prop
  | ok {type : CommandType} (h : type ∈ [CommandType.set, .del, .begin, .quit]) :
      Of type (answer .ok)
  | readOnlyWrite {type : CommandType} (h : type ∈ [CommandType.set, .del]) : Of type readOnlyWrite
  | found (value : Option Bytes) : Of .get (answer (.found value))
  | stats (line : Bytes) : Of .stats (stats line)
  | compacted (records bytesBefore bytesAfter : Nat) :
      Of .compact (compacted records bytesBefore bytesAfter)
  | compactionFailed (error : Bytes) : Of .compact (compactionFailed error)
  | readOnlyCompact : Of .compact readOnlyCompact
  | alreadyInTransaction : Of .begin (answer .alreadyInTransaction)
  | notInTransaction {type : CommandType} (h : type ∈ [CommandType.commit, .rollback]) :
      Of type (answer .notInTransaction)
  | committed (operations : Nat) : Of .commit (answer (.committed operations))
  | commitFailed : Of .commit commitFailed
  | rolledBack (operations : Nat) : Of .rollback (answer (.rolledBack operations))
  | invalid (error : Bytes) : Of .invalid (invalid error)

theorem number_toDecimal (n : Nat) {b : UInt8} (hb : isDigit b = false) (rest : Bytes) :
    number (toDecimal n ++ b :: rest) = (n, b :: rest) := by
  have htake : (toDecimal n ++ b :: rest).takeWhile isDigit = toDecimal n := by
    rw [List.takeWhile_append_of_pos (toDecimal_digits n),
      List.takeWhile_cons_of_neg (by simp [hb]),
      List.append_nil]
  have hdrop : (toDecimal n ++ b :: rest).dropWhile isDigit = b :: rest := by
    rw [List.dropWhile_append_of_pos (toDecimal_digits n),
      List.dropWhile_cons_of_neg (by simp [hb])]
  rw [number, htake, hdrop, ofDecimal_toDecimal]

/-- What is quoted behind words of the server is found there again. -/
theorem drop_quote (front quoted : Bytes) :
    ((front ++ quoted ++ ascii "\n").drop front.length).dropLast = quoted := by
  rw [List.append_assoc, List.drop_left]
  exact List.dropLast_concat

theorem decode_compacted (records bytesBefore bytesAfter : Nat) :
    decodeReply .compact (Result.compacted records bytesBefore bytesAfter).text
      = .compacted records bytesBefore bytesAfter := by
  have hblank : isDigit 32 = false := by decide
  have hnewline : isDigit 10 = false := by decide
  simp only [Result.text, List.append_assoc]
  rw [decodeReply, if_pos (List.prefix_append _ _)]
  dsimp only
  rw [show (9 : Nat) = (ascii "$records=").length by decide +kernel, List.drop_left,
    show ascii " bytes_before=" = 32 :: ascii "bytes_before=" by decide +kernel, List.cons_append,
    number_toDecimal _ hblank]
  rw [show ascii " bytes_after=" = 32 :: ascii "bytes_after=" by decide +kernel, List.cons_append]
  rw [show (14 : Nat) = (ascii "bytes_before=").length + 1 by decide +kernel, List.drop_succ_cons,
    List.drop_left, number_toDecimal _ hblank]
  rw [show (13 : Nat) = (ascii "bytes_after=").length + 1 by decide +kernel, List.drop_succ_cons,
    List.drop_left, show ascii "\n" = [10] by decide +kernel, number_toDecimal _ hnewline]

/-- Two texts of the server that differ somewhere do so whatever is quoted behind them. -/
theorem not_prefix_append {a b : Bytes} (h : ¬ a <+: b ∧ ¬ b <+: a) (rest : Bytes) :
    ¬ a <+: b ++ rest := by
  intro hpre
  rcases List.prefix_or_prefix_of_prefix hpre (List.prefix_append b rest) with hab | hba
  · exact h.1 hab
  · exact h.2 hba

/-- **What became of a line is read off its reply**, unless it found the value `nil`. -/
theorem decodeReply_text {type : CommandType} {r : Result} (h : r.Of type)
    (hnil : r ≠ .answer (.found (some (ascii "nil")))) : decodeReply type r.text = r := by
  cases h with
  | ok h =>
      simp only [List.mem_cons, List.not_mem_nil, or_false] at h
      rcases h with rfl | rfl | rfl | rfl <;> rfl
  | readOnlyWrite h =>
      simp only [List.mem_cons, List.not_mem_nil, or_false] at h
      rcases h with rfl | rfl <;> decide +kernel
  | found value =>
      cases value with
      | none => rfl
      | some value =>
          -- only one value reads like a key that is not there
          have htext : (Result.answer (.found (some value))).text ≠ ascii "$nil\n" := by
            intro heq
            have hvalue := drop_quote (ascii "$") value
            rw [show ascii "$" ++ value ++ ascii "\n" = ascii "$nil\n" from heq] at hvalue
            exact hnil (by rw [← hvalue]; decide +kernel)
          rw [decodeReply, if_neg htext]
          exact congrArg (fun v => Result.answer (.found (some v))) (drop_quote (ascii "$") value)
  | stats line => exact congrArg Result.stats (drop_quote (ascii "$") line)
  | compacted records bytesBefore bytesAfter => exact decode_compacted _ _ _
  | compactionFailed error =>
      have hother : ¬ ascii "$records=" <+: (Result.compactionFailed error).text := by
        rw [Result.text, List.append_assoc]
        exact not_prefix_append (by decide +kernel) _
      have hfront : ascii "-ERR compaction failed: " <+: (Result.compactionFailed error).text := by
        rw [Result.text, List.append_assoc]
        exact List.prefix_append _ _
      rw [decodeReply, if_neg hother, if_pos hfront]
      exact congrArg Result.compactionFailed (drop_quote (ascii "-ERR compaction failed: ") error)
  | readOnlyCompact => decide +kernel
  | alreadyInTransaction => decide +kernel
  | notInTransaction h =>
      simp only [List.mem_cons, List.not_mem_nil, or_false] at h
      rcases h with rfl | rfl <;> decide +kernel
  | committed n =>
      simp only [Result.text, Outcome.text, List.append_assoc]
      rw [decodeReply, if_pos (List.prefix_append _ _),
        show (11 : Nat) = (ascii "$committed=").length by decide +kernel, List.drop_left,
        show ascii "\n" = [10] by decide +kernel, number_toDecimal n (by decide)]
  | commitFailed => decide +kernel
  | rolledBack n =>
      simp only [Result.text, Outcome.text, List.append_assoc]
      rw [decodeReply, if_pos (List.prefix_append _ _),
        show (13 : Nat) = (ascii "$rolled_back=").length by decide +kernel, List.drop_left,
        show ascii "\n" = [10] by decide +kernel, number_toDecimal n (by decide)]
  | invalid error => exact congrArg Result.invalid (drop_quote (ascii "-ERR ") error)

end KvStore.Dialogue
