import KvStore.Lib.Decimal
import KvStore.Wal.Record

/-!
# The control lines of replication

The handshake and the acknowledgements are lines of text; `src/repl/leader.cpp`
and `src/repl/follower.cpp` each read one side of them. Everything else on the
link is the leader's log.
-/

namespace KvStore.Repl

open Lib

/-- The bytes of a text. -/
def ascii (s : String) : Bytes := s.toList.map fun c => UInt8.ofNat c.toNat

/-- What ends a line. -/
def newline : UInt8 := 10

/-- What stands between words. -/
def space : UInt8 := 32

/-- A line between a leader and a follower may be that long. -/
def kMaxControlLine : Nat := 256

/-! ## Reading text -/

/-- What reading a line byte by byte comes to, on the bytes that have arrived. -/
inductive LineRead where
  | line (text rest : Bytes)
  | tooLong
  | incomplete
  deriving DecidableEq, Repr

/-- The loop of both handshakes; `read` is the line so far. -/
def readLine (read : Bytes) : Bytes → LineRead
  | [] => .incomplete
  | c :: rest =>
      if c = newline then .line read rest
      else if (read ++ [c]).length > kMaxControlLine then .tooLong
      else readLine (read ++ [c]) rest

/-- The text before the first blank, between the first two, and behind the second. -/
def fields (line : Bytes) : Option (Bytes × Bytes × Bytes) :=
  match line.dropWhile (· ≠ space) with
  | [] => none
  | _ :: tail =>
      match tail.dropWhile (· ≠ space) with
      | [] => none
      | _ :: rest => some (line.takeWhile (· ≠ space), tail.takeWhile (· ≠ space), rest)

/-- What `isspace` takes for a blank. -/
def isSpace (b : UInt8) : Bool := b = 32 || (9 ≤ b && b ≤ 13)

/--
`std::stoull`: blanks, a sign, digits, and anything behind them. A minus sign wraps
the value around; without a digit, or from `2 ^ 64` on, it throws.
-/
def stoull (text : Bytes) : Option Nat :=
  let text := text.dropWhile isSpace
  let negative := text.head? = some 45
  let text := if negative || text.head? = some 43 then text.drop 1 else text
  let digits := text.takeWhile isDigit
  if digits = [] then none
  else if ofDecimal digits < 2 ^ 64 then
    some (if negative then (2 ^ 64 - ofDecimal digits) % 2 ^ 64 else ofDecimal digits)
  else none

/-! ## The handshake -/

/-- `Store::replicationToken`: which file the log path names. -/
def replicationToken (dev ino : Nat) : Bytes := toDecimal dev ++ ascii "-" ++ toDecimal ino

/-- The token a follower sends. Without a saved token, or without a log, it has no history. -/
def sentToken (savedToken : Bytes) (offset : Nat) : Bytes :=
  if savedToken = [] ∨ offset = 0 then ascii "-" else savedToken

/-- What the follower opens with. -/
def syncRequest (savedToken : Bytes) (offset : Nat) : Bytes :=
  ascii "SYNC " ++ sentToken savedToken offset ++ ascii " " ++ toDecimal offset ++ ascii "\n"

/-- `performHandshake` up to the offset: the token and the offset asked for, or the complaint. -/
def parseSync (line : Bytes) : Except Bytes (Bytes × Nat) :=
  let line := if line.getLast? = some 13 then line.dropLast else line
  match fields line with
  | none => .error (ascii "-ERR expected: SYNC <token> <offset>\n")
  | some (verb, token, offsetText) =>
      if verb ≠ ascii "SYNC" then .error (ascii "-ERR unknown replication verb\n")
      else
        match stoull offsetText with
        | none => .error (ascii "-ERR bad offset\n")
        | some requested => .ok (token, requested)

/-- The decision of `performHandshake`. -/
def canResume (token : Bytes) (requested : Nat) (leaderToken : Bytes) (leaderOffset : Nat) : Bool :=
  decide (token ≠ []) && decide (token = leaderToken) && decide (requested ≤ leaderOffset)

/-- The reply, and the offset the session starts to send from. -/
def answer (token : Bytes) (requested : Nat) (leaderToken : Bytes) (leaderOffset : Nat) :
    Bytes × Nat :=
  if canResume token requested leaderToken leaderOffset then
    (ascii "+RESUME " ++ leaderToken ++ ascii " " ++ toDecimal requested ++ ascii "\n", requested)
  else (ascii "+FULL " ++ leaderToken ++ ascii " 0\n", 0)

/-- What a follower makes of a reply. -/
inductive Reply where
  | resume
  | full (leaderToken : Bytes)
  deriving DecidableEq, Repr

/-- `none` when the follower hangs up. -/
def parseReply (line : Bytes) : Option Reply :=
  if line.head? = some 45 then none
  else
    match fields line with
    | none => none
    | some (verb, leaderToken, _) =>
        if verb = ascii "+RESUME" then some .resume
        else if verb = ascii "+FULL" then some (.full leaderToken)
        else none

/-! ## Acknowledgements -/

/-- What a follower sends when its log ends at an offset. -/
def ackLine (offset : Nat) : Bytes := ascii "ACK " ++ toDecimal offset ++ ascii "\n"

/-- The loop of `drainAcks` over the lines of the buffer: the highest offset, and what is left. -/
def drainLines : Nat → Bytes → Option Nat → Option Nat × Bytes
  | 0, buffer, highest => (highest, buffer)
  | fuel + 1, buffer, highest =>
      if newline ∈ buffer then
        let line := buffer.takeWhile (· ≠ newline)
        let rest := (buffer.dropWhile (· ≠ newline)).drop 1
        if ascii "ACK " <+: line then
          match stoull (line.drop 4) with
          | some offset => drainLines fuel rest (some (max offset (highest.getD 0)))
          | none => drainLines fuel rest highest
        else drainLines fuel rest highest
      else (highest, buffer)

/-! ## Lines read back -/

/-- A line that is found is in front of the first newline. -/
theorem readLine_line {read buffer text rest : Bytes} (h : readLine read buffer = .line text rest)
    (hread : newline ∉ read) :
    read ++ buffer = text ++ newline :: rest ∧ newline ∉ text := by
  induction buffer generalizing read with
  | nil => exact absurd h (by simp [readLine])
  | cons c buffer ih =>
      rw [readLine] at h
      split at h
      · rename_i hc
        obtain ⟨rfl, rfl⟩ := LineRead.line.inj h
        exact ⟨by rw [hc], hread⟩
      · rename_i hc
        split at h
        · exact absurd h (by simp)
        · -- what has been read is still one line
          have hread' : newline ∉ read ++ [c] := by
            intro hm
            rcases List.mem_append.mp hm with hm | hm
            · exact hread hm
            · exact hc (List.mem_singleton.mp hm).symm
          obtain ⟨h1, h2⟩ := ih h hread'
          exact ⟨by rw [← h1]; simp, h2⟩

theorem line_unique {text text' rest rest' : Bytes} (h : newline ∉ text) (h' : newline ∉ text')
    (heq : text ++ newline :: rest = text' ++ newline :: rest') : text = text' ∧ rest = rest' := by
  induction text generalizing text' with
  | nil =>
      cases text' with
      | nil => exact ⟨rfl, (List.cons.inj heq).2⟩
      | cons c text' => exact absurd ((List.cons.inj heq).1 ▸ List.mem_cons_self ..) h'
  | cons c text ih =>
      cases text' with
      | nil => exact absurd ((List.cons.inj heq).1 ▸ List.mem_cons_self ..) h
      | cons c' text' =>
          obtain ⟨hc, heq⟩ := List.cons.inj heq
          obtain ⟨h1, h2⟩ := ih (fun hm => h (List.mem_cons_of_mem _ hm))
            (fun hm => h' (List.mem_cons_of_mem _ hm)) heq
          exact ⟨by rw [hc, h1], h2⟩

/-- **A line is read back whole**, if it is read at all. -/
theorem readLine_unique {text text' rest rest' : Bytes} (h : newline ∉ text)
    (hread : readLine [] (text ++ newline :: rest) = .line text' rest') :
    text' = text ∧ rest' = rest := by
  obtain ⟨heq, h'⟩ := readLine_line hread List.not_mem_nil
  obtain ⟨h1, h2⟩ := line_unique h h' heq
  exact ⟨h1.symm, h2.symm⟩

theorem fields_join {verb token : Bytes} (rest : Bytes) (hverb : space ∉ verb)
    (htoken : space ∉ token) :
    fields (verb ++ space :: (token ++ space :: rest)) = some (verb, token, rest) := by
  have hkeep : ∀ {text : Bytes}, space ∉ text → ∀ b ∈ text, decide (b ≠ space) = true := by
    intro text h b hb
    exact decide_eq_true fun hb' => h (hb' ▸ hb)
  rw [fields, List.dropWhile_append_of_pos (hkeep hverb),
    List.takeWhile_append_of_pos (hkeep hverb)]
  simp only [List.dropWhile_cons, List.takeWhile_cons, ne_eq, not_true_eq_false, decide_false,
    Bool.false_eq_true, if_false, List.append_nil]
  rw [List.dropWhile_append_of_pos (hkeep htoken), List.takeWhile_append_of_pos (hkeep htoken)]
  simp

theorem isSpace_digit {d : UInt8} (h : isDigit d = true) : isSpace d = false := by
  simp only [isDigit, isSpace, Bool.and_eq_true, decide_eq_true_eq, Bool.or_eq_false_iff,
    decide_eq_false_iff_not, Bool.and_eq_false_iff, UInt8.le_iff_toNat_le, ← UInt8.toNat_inj] at h ⊢
  have h48 : (48 : UInt8).toNat = 48 := rfl
  have h32 : (32 : UInt8).toNat = 32 := rfl
  have h13 : (13 : UInt8).toNat = 13 := rfl
  omega

theorem stoull_toDecimal (n : Nat) :
    stoull (toDecimal n) = if n < 2 ^ 64 then some n else none := by
  obtain ⟨d, ds, hn, hd⟩ := toDecimal_cons n
  have hspace : isSpace d = false := isSpace_digit hd
  have hsign : d ≠ 45 ∧ d ≠ 43 := by
    refine ⟨?_, ?_⟩ <;> rintro rfl <;> exact absurd hd (by decide)
  have hhead : (toDecimal n).dropWhile isSpace = toDecimal n := by
    rw [hn, List.dropWhile_cons, hspace]; rfl
  have hplain : (toDecimal n).head? ≠ some 45 ∧ (toDecimal n).head? ≠ some 43 := by
    rw [hn]; simpa using hsign
  rw [stoull]
  simp only [hhead, hplain.1, hplain.2, takeWhile_toDecimal, toDecimal_ne_nil, ofDecimal_toDecimal,
    decide_false, Bool.or_self, Bool.false_eq_true, if_false]

/-- Text that can stand between the blanks of a line. -/
def Plain (text : Bytes) : Prop := space ∉ text ∧ newline ∉ text

instance (text : Bytes) : Decidable (Plain text) := inferInstanceAs (Decidable (_ ∧ _))

theorem plain_append {a b : Bytes} (ha : Plain a) (hb : Plain b) : Plain (a ++ b) := by
  simp only [Plain, List.mem_append, not_or]
  exact ⟨⟨ha.1, hb.1⟩, ha.2, hb.2⟩

theorem plain_toDecimal (n : Nat) : Plain (toDecimal n) :=
  ⟨not_mem_toDecimal (by decide) n, not_mem_toDecimal (by decide) n⟩

theorem plain_replicationToken (dev ino : Nat) : Plain (replicationToken dev ino) :=
  plain_append (plain_append (plain_toDecimal dev) (by decide)) (plain_toDecimal ino)

theorem replicationToken_ne_nil (dev ino : Nat) : replicationToken dev ino ≠ [] := by
  simp [replicationToken, toDecimal_ne_nil]

/-- On one device, a token tells files apart by their inode numbers. -/
theorem replicationToken_inj {dev ino ino' : Nat}
    (h : replicationToken dev ino = replicationToken dev ino') : ino = ino' := by
  have hino : toDecimal ino = toDecimal ino' := List.append_cancel_left h
  rw [← ofDecimal_toDecimal ino, hino, ofDecimal_toDecimal]

/-- A token is never what a follower without a history sends. -/
theorem replicationToken_ne_dash (dev ino : Nat) : replicationToken dev ino ≠ ascii "-" := by
  obtain ⟨d, ds, hn, _⟩ := toDecimal_cons dev
  have hdash : ascii "-" = [45] := by decide
  rw [replicationToken, hn, hdash]
  simp

theorem plain_sentToken {savedToken : Bytes} (h : Plain savedToken) (offset : Nat) :
    Plain (sentToken savedToken offset) := by
  rw [sentToken]
  split
  · decide
  · exact h

/-- **The leader reads what the follower asked for**, or finds the offset too large. -/
theorem syncRequest_line {savedToken : Bytes} (h : Plain savedToken) (offset : Nat) :
    ∃ line, syncRequest savedToken offset = line ++ [newline] ∧ newline ∉ line
      ∧ parseSync line
        = if offset < 2 ^ 64 then .ok (sentToken savedToken offset, offset)
          else .error (ascii "-ERR bad offset\n") := by
  obtain ⟨hspace, hnewline⟩ := plain_sentToken h offset
  have hverb : ascii "SYNC " = ascii "SYNC" ++ [space] := by decide
  have hblank : ascii " " = [space] := by decide
  refine ⟨ascii "SYNC" ++ space :: (sentToken savedToken offset ++ space :: toDecimal offset),
    ?_, ?_, ?_⟩
  · have hend : ascii "\n" = [newline] := by decide
    rw [syncRequest, hverb, hblank, hend]
    simp
  · simp only [List.mem_append, List.mem_cons, not_or]
    exact ⟨by decide, by decide, hnewline, by decide, (plain_toDecimal offset).2⟩
  · -- a line that ends in a digit has no `\r` to strip
    have hlast : (ascii "SYNC" ++ space :: (sentToken savedToken offset
        ++ space :: toDecimal offset)).getLast? ≠ some 13 := by
      have hend : ∀ text : Bytes, (text ++ toDecimal offset).getLast? ≠ some 13 := by
        intro text hlast
        rw [List.getLast?_append_of_ne_nil _ (toDecimal_ne_nil offset)] at hlast
        exact not_mem_toDecimal (b := 13) (by decide) offset (List.mem_of_getLast? hlast)
      have := hend (ascii "SYNC" ++ space :: (sentToken savedToken offset ++ [space]))
      simpa using this
    rw [parseSync]
    simp only [hlast, if_false]
    rw [fields_join _ (by decide) hspace]
    simp only [ne_eq, not_true_eq_false, if_false]
    rw [stoull_toDecimal]
    by_cases hfit : offset < 2 ^ 64
    · rw [if_pos hfit, if_pos hfit]
    · rw [if_neg hfit, if_neg hfit]

/-- A complaint begins with a dash. -/
theorem parseSync_error {text reply : Bytes} (h : parseSync text = .error reply) :
    ∃ tail, reply = 45 :: tail := by
  unfold parseSync at h
  dsimp only at h
  split at h
  · exact ⟨_, (Except.error.inj h).symm⟩
  · split at h
    · exact ⟨_, (Except.error.inj h).symm⟩
    · split at h
      · exact ⟨_, (Except.error.inj h).symm⟩
      · exact absurd h (by simp)

/-- A complaint is not an answer. -/
theorem parseSync_complaint {text reply line rest : Bytes} (h : parseSync text = .error reply)
    (heq : reply = line ++ newline :: rest) : parseReply line = none := by
  obtain ⟨tail, rfl⟩ := parseSync_error h
  cases line with
  | nil => exact absurd (List.cons.inj heq).1 (by decide)
  | cons b line =>
      obtain ⟨rfl, _⟩ := List.cons.inj heq
      rfl

/-- A follower that has some of the leader's log is resumed. -/
theorem canResume_of_saved {savedToken leaderToken : Bytes} {offset leaderOffset : Nat}
    (hsaved : savedToken = leaderToken) (hne : leaderToken ≠ []) (hpos : offset ≠ 0)
    (hle : offset ≤ leaderOffset) :
    canResume (sentToken savedToken offset) offset leaderToken leaderOffset = true := by
  have hsent : sentToken savedToken offset = leaderToken := by
    rw [sentToken, if_neg (by rw [hsaved]; simp [hne, hpos]), hsaved]
  simp [canResume, hsent, hne, hle]

/--
What the leader decides, when the follower's token is the leader's or there is
nothing in its log: to go on from the end of that log.
-/
theorem answer_offset {savedToken leaderToken : Bytes} {offset leaderOffset : Nat}
    (htoken : savedToken = leaderToken ∨ offset = 0) (hne : leaderToken ≠ [])
    (hdash : leaderToken ≠ ascii "-") (hle : offset ≤ leaderOffset) :
    (answer (sentToken savedToken offset) offset leaderToken leaderOffset).2 = offset
      ∧ (canResume (sentToken savedToken offset) offset leaderToken leaderOffset = false →
        offset = 0) := by
  by_cases hzero : offset = 0
  · have hsent : sentToken savedToken offset = ascii "-" := if_pos (Or.inr hzero)
    have hcan : canResume (sentToken savedToken offset) offset leaderToken leaderOffset
      = false := by
      simp [canResume, hsent, hdash.symm]
    rw [answer, hcan, hzero]
    exact ⟨rfl, fun _ => rfl⟩
  · have hcan := canResume_of_saved (htoken.resolve_right hzero) hne hzero hle
    rw [answer, if_pos hcan]
    exact ⟨rfl, fun hno => absurd (hcan.symm.trans hno) (by simp)⟩

/-- A follower is only resumed under the token it has saved. -/
theorem savedToken_of_canResume {savedToken leaderToken : Bytes}
    {offset requested leaderOffset : Nat} (hdash : leaderToken ≠ ascii "-")
    (h : canResume (sentToken savedToken offset) requested leaderToken leaderOffset = true) :
    savedToken = leaderToken := by
  simp only [canResume, Bool.and_eq_true, decide_eq_true_eq] at h
  obtain ⟨⟨_, hsent⟩, _⟩ := h
  rw [sentToken] at hsent
  split at hsent
  · exact absurd hsent.symm hdash
  · exact hsent

/-- **The follower reads what the leader answered.** -/
theorem answer_line {leaderToken : Bytes} (h : Plain leaderToken) (token : Bytes)
    (requested leaderOffset : Nat) :
    ∃ line, (answer token requested leaderToken leaderOffset).1 = line ++ [newline]
      ∧ newline ∉ line
      ∧ parseReply line
        = some (if canResume token requested leaderToken leaderOffset then .resume
            else .full leaderToken) := by
  obtain ⟨hspace, hnewline⟩ := h
  have hend : ascii "\n" = [newline] := by decide
  have hblank : ascii " " = [space] := by decide
  cases hcan : canResume token requested leaderToken leaderOffset with
  | true =>
      have hverb : ascii "+RESUME " = ascii "+RESUME" ++ [space] := by decide
      refine ⟨ascii "+RESUME" ++ space :: (leaderToken ++ space :: toDecimal requested),
        ?_, ?_, ?_⟩
      · rw [answer, if_pos hcan, hverb, hend, hblank]
        simp
      · simp only [List.mem_append, List.mem_cons, not_or]
        exact ⟨by decide, by decide, hnewline, by decide, (plain_toDecimal requested).2⟩
      · rw [parseReply, fields_join _ (by decide) hspace]
        rfl
  | false =>
      have hverb : ascii "+FULL " = ascii "+FULL" ++ [space] := by decide
      -- a full resync starts at offset 0, whatever was asked for
      have hzero : ascii " 0\n" = space :: (ascii "0" ++ [newline]) := by decide
      refine ⟨ascii "+FULL" ++ space :: (leaderToken ++ space :: ascii "0"), ?_, ?_, ?_⟩
      · rw [answer, hcan, hverb, hzero]
        simp
      · simp only [List.mem_append, List.mem_cons, not_or]
        exact ⟨by decide, by decide, hnewline, by decide, by decide⟩
      · rw [parseReply, fields_join _ (by decide) hspace]
        rfl

/-! ## Acknowledgements read back -/

theorem cut_line {text : Bytes} (h : newline ∉ text) (tail : Bytes) :
    (text ++ newline :: tail).takeWhile (· ≠ newline) = text
      ∧ ((text ++ newline :: tail).dropWhile (· ≠ newline)).drop 1 = tail := by
  have hkeep : ∀ b ∈ text, decide (b ≠ newline) = true := by
    intro b hb
    exact decide_eq_true fun hb' => h (hb' ▸ hb)
  rw [List.takeWhile_append_of_pos hkeep, List.dropWhile_append_of_pos hkeep]
  simp

theorem ackLine_line (offset : Nat) :
    ∃ line, ackLine offset = line ++ [newline] ∧ newline ∉ line ∧ ascii "ACK " <+: line
      ∧ line.drop 4 = toDecimal offset := by
  have hend : ascii "\n" = [newline] := by decide
  refine ⟨ascii "ACK " ++ toDecimal offset, by rw [ackLine, hend], ?_, List.prefix_append _ _, ?_⟩
  · rw [List.mem_append, not_or]
    exact ⟨by decide, (plain_toDecimal offset).2⟩
  · exact List.drop_left' (by decide)

/--
**Acknowledgements are read as they were sent**, however the stream is cut: the
loop takes whole lines off the front, and the highest offset is one of theirs.
-/
theorem drainLines_acks {fuel : Nat} {buffer later rest : Bytes} {offsets : List Nat}
    {highest r : Option Nat} (h : buffer ++ later = offsets.flatMap ackLine)
    (hd : drainLines fuel buffer highest = (r, rest)) :
    ∃ done left, offsets = done ++ left ∧ rest ++ later = left.flatMap ackLine
      ∧ ∀ a, r = some a → a ∈ done ∨ highest = some a := by
  induction fuel generalizing buffer offsets highest with
  | zero =>
      obtain ⟨rfl, rfl⟩ := Prod.mk.inj hd
      exact ⟨[], offsets, rfl, h, fun a ha => Or.inr ha⟩
  | succ fuel ih =>
      rw [drainLines] at hd
      split at hd
      · rename_i hmem
        cases offsets with
        | nil =>
            rw [List.flatMap_nil, List.append_eq_nil_iff] at h
            rw [h.1] at hmem
            exact absurd hmem List.not_mem_nil
        | cons offset offsets =>
            -- the first line of the buffer is the first that was sent
            obtain ⟨line, hline, hnl, hpre, hnumber⟩ := ackLine_line offset
            obtain ⟨text, tail, rfl, htext⟩ := List.eq_append_cons_of_mem hmem
            rw [List.flatMap_cons, hline, List.append_assoc, List.append_assoc,
              List.singleton_append, List.cons_append] at h
            obtain ⟨rfl, hrest⟩ := line_unique htext hnl h
            obtain ⟨htake, hdrop⟩ := cut_line htext tail
            dsimp only at hd
            rw [htake, hdrop, if_pos hpre, hnumber, stoull_toDecimal] at hd
            by_cases hfit : offset < 2 ^ 64
            · rw [if_pos hfit] at hd
              obtain ⟨done, left, rfl, hleft, hr⟩ := ih hrest hd
              refine ⟨offset :: done, left, rfl, hleft, ?_⟩
              intro a ha
              rcases hr a ha with ha | ha
              · exact Or.inl (List.mem_cons_of_mem _ ha)
              · -- the maximum is this line's offset, or what it was before
                cases highest with
                | none =>
                    obtain rfl : max offset 0 = a := Option.some.inj ha
                    exact Or.inl (by simp)
                | some b =>
                    obtain rfl : max offset b = a := Option.some.inj ha
                    rcases Nat.le_total offset b with hle | hle
                    · exact Or.inr (by rw [Nat.max_eq_right hle])
                    · exact Or.inl (by rw [Nat.max_eq_left hle]; exact List.mem_cons_self ..)
            · -- too large for `stoull`: the line is skipped
              rw [if_neg hfit] at hd
              obtain ⟨done, left, rfl, hleft, hr⟩ := ih hrest hd
              refine ⟨offset :: done, left, rfl, hleft, ?_⟩
              intro a ha
              exact (hr a ha).imp (List.mem_cons_of_mem _) id
      · obtain ⟨rfl, rfl⟩ := Prod.mk.inj hd
        exact ⟨[], offsets, rfl, h, fun a ha => Or.inr ha⟩

end KvStore.Repl
