import KvStore.Lib.Lines

/-!
# Reading lines piece by piece

A reader gets its input in pieces. It hands over every line that is complete, keeps what
is behind the last separator, and gives up when it keeps too much.

So it does not look at the length of a line, but at what it has of one at the end of a
piece. A line that is too long may be complete by then, and is handed over like any
other. What should become of a line is said by `verdict`, where nothing depends on
pieces; a reader comes to the same if every line that is too long is too long by at
least a piece. If one is not, there are pieces for which it does not.
-/

namespace KvStore.Lib

/-- What a reader does with what it reads; `τ` is what it works on. -/
structure LineRules (τ α : Type) where
  sep : α
  /-- What is longer is too long. -/
  limit : Nat
  /-- A line: what comes of it, and whether it was the last. -/
  hand : τ → List α → τ × Bool
  refuse : τ → τ

/-- A reader between two pieces: what it works on, and what it keeps of a line. -/
structure LineReader (τ α : Type) where
  state : τ
  /-- The beginning of a line. -/
  rest : List α := []
  stopped : Bool := false

namespace LineRules

variable {τ α : Type} [DecidableEq α] {R : LineRules τ α} {chunk : Nat} {t : τ}
  {input line rest stream more : List α}

/-- Hand over some lines, up to the last one. -/
def handAll (R : LineRules τ α) : τ → List (List α) → τ × Bool
  | t, [] => (t, false)
  | t, line :: lines =>
      if (R.hand t line).2 then R.hand t line else handAll R (R.hand t line).1 lines

/-- Hand over every line of the input, and look at what is left. -/
def serve (R : LineRules τ α) (t : τ) (input : List α) : LineReader τ α :=
  let cut := splitLines R.sep input
  let r := R.handAll t cut.1
  if r.2 then { state := r.1, stopped := true }
  -- what is looked at is not a line, but what is left of the input
  else if R.limit < cut.2.length then { state := R.refuse r.1, stopped := true }
  else { state := r.1, rest := cut.2 }

/-- One piece more. -/
def feed (R : LineRules τ α) (r : LineReader τ α) (piece : List α) : LineReader τ α :=
  if r.stopped then r else R.serve r.state (r.rest ++ piece)

theorem serve_of_none (hnone : cutLine R.sep input = none) :
    R.serve t input = if R.limit < input.length then { state := R.refuse t, stopped := true }
      else { state := t, rest := input } := by
  rw [serve, splitLines_of_cutLine_none hnone]
  rfl

theorem serve_of_cutLine (hcut : cutLine R.sep input = some (line, rest)) :
    R.serve t input = if (R.hand t line).2 then { state := (R.hand t line).1, stopped := true }
      else R.serve (R.hand t line).1 rest := by
  rw [serve, splitLines_of_cutLine hcut]
  dsimp only
  rw [handAll]
  split
  · rfl
  · rfl

theorem serve_short (hnone : cutLine R.sep input = none) (hlen : input.length ≤ R.limit) :
    R.serve t input = { state := t, rest := input } := by
  rw [serve_of_none hnone, if_neg (Nat.not_lt.mpr hlen)]

theorem serve_long (hnone : cutLine R.sep input = none) (hlen : R.limit < input.length) :
    R.serve t input = { state := R.refuse t, stopped := true } := by
  rw [serve_of_none hnone, if_pos hlen]

theorem feed_stopped {r : LineReader τ α} (h : r.stopped = true) (piece : List α) :
    R.feed r piece = r := if_pos h

theorem feeds_stopped {r : LineReader τ α} (h : r.stopped = true) (pieces : List (List α)) :
    pieces.foldl R.feed r = r := by
  induction pieces with
  | nil => rfl
  | cons piece pieces ih => rw [List.foldl_cons, feed_stopped h, ih]

/-! ## What should become of the lines -/

/-- A line is refused if it is too long, and so is the beginning of one. -/
def judge (R : LineRules τ α) : τ → List (List α) → List α → τ
  | t, [], tail => if R.limit < tail.length then R.refuse t else t
  | t, line :: lines, tail =>
      if R.limit < line.length then R.refuse t
      else if (R.hand t line).2 then (R.hand t line).1
      else judge R (R.hand t line).1 lines tail

/-- What should become of a stream. -/
def verdict (R : LineRules τ α) (t : τ) (stream : List α) : τ :=
  R.judge t (splitLines R.sep stream).1 (splitLines R.sep stream).2

theorem verdict_of_none (hnone : cutLine R.sep stream = none) :
    R.verdict t stream = if R.limit < stream.length then R.refuse t else t := by
  rw [verdict, splitLines_of_cutLine_none hnone]
  rfl

theorem verdict_of_cutLine (hcut : cutLine R.sep stream = some (line, rest)) :
    R.verdict t stream = if R.limit < line.length then R.refuse t
      else if (R.hand t line).2 then (R.hand t line).1 else R.verdict (R.hand t line).1 rest := by
  rw [verdict, splitLines_of_cutLine hcut]
  rfl

theorem verdict_short (hnone : cutLine R.sep stream = none) (hlen : stream.length ≤ R.limit) :
    R.verdict t stream = t := by
  rw [verdict_of_none hnone, if_neg (Nat.not_lt.mpr hlen)]

theorem verdict_line (hcut : cutLine R.sep stream = some (line, rest))
    (hlen : line.length ≤ R.limit) :
    R.verdict t stream
      = if (R.hand t line).2 then (R.hand t line).1 else R.verdict (R.hand t line).1 rest := by
  rw [verdict_of_cutLine hcut, if_neg (Nat.not_lt.mpr hlen)]

/-- What is too long already is not going to be short. -/
theorem verdict_of_long (hnone : cutLine R.sep input = none) (hlong : R.limit < input.length)
    (more : List α) : R.verdict t (input ++ more) = R.refuse t := by
  have hall := cutLine_append_of_none hnone more
  cases hcut : cutLine R.sep more with
  | none =>
      rw [hcut] at hall
      rw [verdict_of_none hall, if_pos (by rw [List.length_append]; omega)]
  | some lr =>
      rw [hcut] at hall
      rw [verdict_of_cutLine hall, if_pos (by rw [List.length_append]; omega)]

/-- The lines in front of the last one: none is too long by less than a piece. -/
def NoneBarelyTooLong (R : LineRules τ α) (chunk : Nat) : τ → List (List α) → Prop
  | _, [] => True
  | t, line :: lines =>
      if R.limit < line.length then R.limit + chunk ≤ line.length
      else (R.hand t line).2 = true ∨ NoneBarelyTooLong R chunk (R.hand t line).1 lines

/-- No line of the stream, up to the last one, is too long by less than a piece. -/
def NeverBarelyTooLong (R : LineRules τ α) (chunk : Nat) (t : τ) (stream : List α) : Prop :=
  R.NoneBarelyTooLong chunk t (splitLines R.sep stream).1

instance decidableNoneBarelyTooLong (R : LineRules τ α) (chunk : Nat) :
    ∀ t lines, Decidable (R.NoneBarelyTooLong chunk t lines)
  | _, [] => isTrue trivial
  | t, line :: lines =>
      have := decidableNoneBarelyTooLong R chunk (R.hand t line).1 lines
      inferInstanceAs (Decidable (if R.limit < line.length then R.limit + chunk ≤ line.length
        else (R.hand t line).2 = true ∨ R.NoneBarelyTooLong chunk (R.hand t line).1 lines))

instance (R : LineRules τ α) (chunk : Nat) (t : τ) (stream : List α) :
    Decidable (R.NeverBarelyTooLong chunk t stream) :=
  decidableNoneBarelyTooLong R chunk t _

theorem neverBarelyTooLong_of_none (hnone : cutLine R.sep stream = none) :
    R.NeverBarelyTooLong chunk t stream := by
  rw [NeverBarelyTooLong, splitLines_of_cutLine_none hnone]
  trivial

theorem neverBarelyTooLong_of_cutLine (hcut : cutLine R.sep stream = some (line, rest)) :
    R.NeverBarelyTooLong chunk t stream ↔
      if R.limit < line.length then R.limit + chunk ≤ line.length
      else (R.hand t line).2 = true ∨ R.NeverBarelyTooLong chunk (R.hand t line).1 rest := by
  rw [NeverBarelyTooLong, splitLines_of_cutLine hcut]
  rfl

/-- Nothing is too long. -/
theorem neverBarelyTooLong_of_shortLines (hshort : ShortLines R.sep R.limit stream) :
    R.NeverBarelyTooLong chunk t stream := by
  induction stream using lineInduction R.sep generalizing t with
  | rest stream hnone => exact neverBarelyTooLong_of_none hnone
  | line stream line rest hcut ih =>
      have hlen := hshort.line_le hcut
      rw [neverBarelyTooLong_of_cutLine hcut, if_neg (Nat.not_lt.mpr hlen)]
      exact .inr (ih (hshort.rest hcut))

/-! ## Streams with no such line -/

/-- A reader that has `more` to read is going to end with `goal`. -/
structure OnTrack (R : LineRules τ α) (chunk : Nat) (goal : τ) (more : List α)
    (r : LineReader τ α) : Prop where
  stopped : r.stopped = true → r.state = goal
  waiting : r.stopped = false → cutLine R.sep r.rest = none ∧ r.rest.length ≤ R.limit
    ∧ R.NeverBarelyTooLong chunk r.state (r.rest ++ more)
    ∧ R.verdict r.state (r.rest ++ more) = goal

theorem onTrack_start (hnever : R.NeverBarelyTooLong chunk t stream) :
    R.OnTrack chunk (R.verdict t stream) stream { state := t } :=
  ⟨fun hno => absurd hno (by simp), fun _ => ⟨rfl, Nat.zero_le _, hnever, rfl⟩⟩

/-- The buffer has what was left and one piece, so that a line in it is not much too long. -/
theorem onTrack_serve (hlen : input.length ≤ R.limit + chunk)
    (hnever : R.NeverBarelyTooLong chunk t (input ++ more)) :
    R.OnTrack chunk (R.verdict t (input ++ more)) more (R.serve t input) := by
  induction input using lineInduction R.sep generalizing t with
  | rest input hnone =>
      rw [serve_of_none hnone]
      split
      · rename_i hlong
        exact ⟨fun _ => (verdict_of_long hnone hlong more).symm, fun hno => absurd hno (by simp)⟩
      · rename_i hshort
        exact ⟨fun hno => absurd hno (by simp),
          fun _ => ⟨hnone, Nat.not_lt.mp hshort, hnever, rfl⟩⟩
  | line input line rest hcut ih =>
      have hall := cutLine_append hcut more
      obtain ⟨heq, -⟩ := cutLine_eq_some.mp hcut
      rw [heq, List.length_append, List.length_cons] at hlen
      -- a line that is too long is longer than the whole buffer
      have hline : ¬ R.limit < line.length := by
        intro hlong
        rw [neverBarelyTooLong_of_cutLine hall, if_pos hlong] at hnever
        omega
      rw [neverBarelyTooLong_of_cutLine hall, if_neg hline] at hnever
      rw [verdict_line hall (Nat.not_lt.mp hline), serve_of_cutLine hcut]
      split
      · exact ⟨fun _ => rfl, fun hno => absurd hno (by simp)⟩
      · rename_i hgoon
        exact ih (by omega) (hnever.resolve_left hgoon)

theorem OnTrack.feed {goal : τ} {r : LineReader τ α} {piece : List α}
    (h : R.OnTrack chunk goal (piece ++ more) r) (hlen : piece.length ≤ chunk) :
    R.OnTrack chunk goal more (R.feed r piece) := by
  unfold LineRules.feed
  split
  · rename_i hstopped
    exact ⟨fun _ => h.stopped hstopped, fun hno => absurd (hstopped.symm.trans hno) (by simp)⟩
  · rename_i hgoon
    obtain ⟨-, hshort, hnever, hverdict⟩ := h.waiting (Bool.eq_false_iff.mpr hgoon)
    rw [← List.append_assoc] at hnever hverdict
    rw [← hverdict]
    exact onTrack_serve (by rw [List.length_append]; omega) hnever

theorem OnTrack.feeds {goal : τ} {r : LineReader τ α} {pieces : List (List α)}
    (h : R.OnTrack chunk goal (pieces.flatten ++ more) r)
    (hlen : ∀ piece ∈ pieces, piece.length ≤ chunk) :
    R.OnTrack chunk goal more (pieces.foldl R.feed r) := by
  induction pieces generalizing r with
  | nil => exact h
  | cons piece pieces ih =>
      rw [List.flatten_cons, List.append_assoc] at h
      rw [List.foldl_cons]
      exact ih (h.feed (hlen piece (List.mem_cons_self ..)))
        fun p hp => hlen p (List.mem_cons_of_mem _ hp)

theorem OnTrack.finished {goal : τ} {r : LineReader τ α} (h : R.OnTrack chunk goal [] r) :
    r.state = goal := by
  cases hstopped : r.stopped with
  | true => exact h.stopped hstopped
  | false =>
      obtain ⟨hnone, hshort, -, hverdict⟩ := h.waiting hstopped
      rw [List.append_nil, verdict_short hnone hshort] at hverdict
      exact hverdict

theorem OnTrack.feeds_all {goal : τ} {r : LineReader τ α} {pieces : List (List α)}
    (h : R.OnTrack chunk goal pieces.flatten r) (hlen : ∀ piece ∈ pieces, piece.length ≤ chunk) :
    (pieces.foldl R.feed r).state = goal := by
  rw [← List.append_nil pieces.flatten] at h
  exact (h.feeds hlen).finished

/--
**On such a stream the pieces do not matter**, if none is larger than a chunk: a reader
that has stopped, or has read everything, has come to the verdict.
-/
theorem feeds_eq_verdict {pieces : List (List α)} (hlen : ∀ piece ∈ pieces, piece.length ≤ chunk)
    (hnever : R.NeverBarelyTooLong chunk t (pieces.flatten ++ more))
    (hdone : (pieces.foldl R.feed { state := t }).stopped = true ∨ more = []) :
    (pieces.foldl R.feed { state := t }).state = R.verdict t (pieces.flatten ++ more) := by
  have htrack := (onTrack_start hnever).feeds hlen
  rcases hdone with hstopped | rfl
  · exact htrack.stopped hstopped
  · exact htrack.finished

/-! ## What only grows -/

section Growing

variable {L : τ → τ → Prop} (hrefl : ∀ t, L t t)
  (htrans : ∀ t₁ t₂ t₃, L t₁ t₂ → L t₂ t₃ → L t₁ t₃)
  (hhand : ∀ t line, L t (R.hand t line).1) (hrefuse : ∀ t, L t (R.refuse t))

include hrefl htrans hhand hrefuse

theorem grows_serve (t : τ) (input : List α) : L t (R.serve t input).state := by
  induction input using lineInduction R.sep generalizing t with
  | rest input hnone =>
      rw [serve_of_none hnone]
      split
      · exact hrefuse t
      · exact hrefl t
  | line input line rest hcut ih =>
      rw [serve_of_cutLine hcut]
      split
      · exact hhand t line
      · exact htrans _ _ _ (hhand t line) (ih (R.hand t line).1)

theorem grows_feeds (r : LineReader τ α) (pieces : List (List α)) :
    L r.state (pieces.foldl R.feed r).state := by
  induction pieces generalizing r with
  | nil => exact hrefl _
  | cons piece pieces ih =>
      rw [List.foldl_cons]
      refine htrans _ _ _ ?_ (ih (R.feed r piece))
      unfold feed
      split
      · exact hrefl _
      · exact grows_serve hrefl htrans hhand hrefuse r.state _

theorem grows_verdict (t : τ) (stream : List α) : L t (R.verdict t stream) := by
  induction stream using lineInduction R.sep generalizing t with
  | rest stream hnone =>
      rw [verdict_of_none hnone]
      split
      · exact hrefuse t
      · exact hrefl t
  | line stream line rest hcut ih =>
      rw [verdict_of_cutLine hcut]
      split
      · exact hrefuse t
      · split
        · exact hhand t line
        · exact htrans _ _ _ (hhand t line) (ih (R.hand t line).1)

end Growing

/-! ## Other streams -/

/-- A piece as a careful sender might choose it: a separator ends it. -/
def Tame (sep : α) (chunk : Nat) (piece : List α) : Prop :=
  piece ≠ [] ∧ piece.length ≤ chunk ∧ sep ∉ piece.dropLast

/-- The smallest pieces there are. -/
def singles (input : List α) : List (List α) := input.map fun a => [a]

omit [DecidableEq α] in
theorem flatten_singles (input : List α) : (singles input).flatten = input := by
  rw [singles, ← List.flatMap_def, List.flatMap_singleton']

omit [DecidableEq α] in
theorem tame_singles {sep : α} (hchunk : 0 < chunk) :
    ∀ piece ∈ singles input, Tame sep chunk piece := by
  intro piece hpiece
  obtain ⟨a, -, rfl⟩ := List.mem_map.mp hpiece
  exact ⟨by simp, hchunk, by simp⟩

theorem feed_short (hnone : cutLine R.sep (rest ++ input) = none)
    (hlen : (rest ++ input).length ≤ R.limit) :
    R.feed { state := t, rest := rest } input = { state := t, rest := rest ++ input } := by
  rw [feed, if_neg (by simp)]
  exact serve_short hnone hlen

/-- As long as there is no separator, and not too much, the pieces are kept. -/
theorem feeds_short {pieces : List (List α)} (hnone : cutLine R.sep (rest ++ pieces.flatten) = none)
    (hlen : (rest ++ pieces.flatten).length ≤ R.limit) :
    pieces.foldl R.feed { state := t, rest := rest }
      = { state := t, rest := rest ++ pieces.flatten } := by
  induction pieces generalizing rest with
  | nil => simp
  | cons piece pieces ih =>
      rw [List.flatten_cons, ← List.append_assoc] at hnone hlen ⊢
      have hfront : cutLine R.sep (rest ++ piece) = none :=
        cutLine_eq_none.mpr fun hm =>
          cutLine_eq_none.mp hnone (List.mem_append_left _ hm)
      rw [List.foldl_cons, feed_short hfront (by rw [List.length_append] at hlen; omega)]
      exact ih hnone hlen

theorem feeds_kept {pieces : List (List α)} (hnone : R.sep ∉ pieces.flatten)
    (hlen : pieces.flatten.length ≤ R.limit) :
    pieces.foldl R.feed { state := t } = { state := t, rest := pieces.flatten } := by
  have hkept := @feeds_short τ α _ R t [] pieces
  rw [List.nil_append] at hkept
  exact hkept (cutLine_eq_none.mpr hnone) hlen

/-- The piece that completes a line. -/
theorem feed_line (rest input : List α) (hnone : R.sep ∉ rest ++ input) :
    R.feed { state := t, rest := rest } (input ++ [R.sep])
      = if (R.hand t (rest ++ input)).2
        then { state := (R.hand t (rest ++ input)).1, stopped := true }
        else { state := (R.hand t (rest ++ input)).1 } := by
  have hcut : cutLine R.sep (rest ++ (input ++ [R.sep])) = some (rest ++ input, []) :=
    cutLine_eq_some.mpr ⟨by simp, hnone⟩
  rw [feed, if_neg (by simp), serve_of_cutLine hcut]
  rfl

/-- A line of one element too many is refused if a piece ends with that element. -/
theorem feeds_refused {pieces : List (List α)} {a : α} (hnone : R.sep ∉ pieces.flatten ++ [a])
    (hlen : pieces.flatten.length = R.limit) (more : List (List α)) :
    ((pieces ++ [a] :: more).foldl R.feed { state := t }).state = R.refuse t := by
  have hfront : R.sep ∉ pieces.flatten := fun hm => hnone (List.mem_append_left _ hm)
  have hlong : R.feed { state := t, rest := pieces.flatten } [a]
      = { state := R.refuse t, stopped := true } := by
    rw [feed, if_neg (by simp)]
    refine serve_long (cutLine_eq_none.mpr hnone) ?_
    rw [List.length_append, hlen]
    exact Nat.lt_succ_self _
  rw [List.foldl_append, feeds_kept hfront (Nat.le_of_eq hlen), List.foldl_cons, hlong,
    feeds_stopped rfl]

/-- A line is handed over, however long, if what is left of it comes in one piece. -/
theorem feeds_handed {pieces : List (List α)} (hnone : R.sep ∉ pieces.flatten ++ input)
    (hlen : pieces.flatten.length ≤ R.limit) :
    (pieces ++ [input ++ [R.sep]]).foldl R.feed { state := t }
      = if (R.hand t (pieces.flatten ++ input)).2
        then { state := (R.hand t (pieces.flatten ++ input)).1, stopped := true }
        else { state := (R.hand t (pieces.flatten ++ input)).1 } := by
  have hfront : R.sep ∉ pieces.flatten := fun hm => hnone (List.mem_append_left _ hm)
  rw [List.foldl_append, feeds_kept hfront hlen]
  exact feed_line _ _ hnone

/-- A line as it is handed over however long it is: as much as may be kept, and the rest. -/
def inFull (R : LineRules τ α) (line : List α) : List (List α) :=
  singles (line.take R.limit) ++ [line.drop R.limit ++ [R.sep]]

omit [DecidableEq α] in
theorem flatten_inFull (R : LineRules τ α) (line : List α) :
    (R.inFull line).flatten = line ++ [R.sep] := by
  rw [inFull, List.flatten_append, flatten_singles, List.flatten_singleton, ← List.append_assoc,
    List.take_append_drop]

omit [DecidableEq α] in
theorem tame_inFull (hchunk : 0 < chunk) (hsep : R.sep ∉ line)
    (hlen : line.length < R.limit + chunk) : ∀ piece ∈ R.inFull line, Tame R.sep chunk piece := by
  intro piece hpiece
  rcases List.mem_append.mp hpiece with hmem | hmem
  · exact tame_singles hchunk piece hmem
  · rw [List.mem_singleton.mp hmem]
    refine ⟨by simp, ?_, ?_⟩
    · rw [List.length_append, List.length_drop, List.length_singleton]
      omega
    · rw [List.dropLast_concat]
      exact fun hm => hsep (List.mem_of_mem_drop hm)

theorem feeds_inFull (hsep : R.sep ∉ line) :
    (R.inFull line).foldl R.feed { state := t }
      = if (R.hand t line).2 then { state := (R.hand t line).1, stopped := true }
        else { state := (R.hand t line).1 } := by
  have hline : (singles (line.take R.limit)).flatten ++ line.drop R.limit = line := by
    rw [flatten_singles, List.take_append_drop]
  have hhanded := @feeds_handed τ α _ R t (line.drop R.limit) (singles (line.take R.limit))
  rw [hline, flatten_singles] at hhanded
  exact hhanded hsep (List.length_take_le ..)

section Weight

variable {w : τ → Nat} (hhand : ∀ t line, w (R.hand t line).1 = w t + 1)
  (hrefuse : ∀ t, w (R.refuse t) = w t)

include hhand hrefuse

theorem weight_feeds (r : LineReader τ α) (pieces : List (List α)) :
    w r.state ≤ w (pieces.foldl R.feed r).state :=
  grows_feeds (L := fun t₁ t₂ => w t₁ ≤ w t₂) (fun _ => Nat.le_refl _)
    (fun _ _ _ => Nat.le_trans) (fun t line => by rw [hhand]; omega)
    (fun t => Nat.le_of_eq (hrefuse t).symm) r pieces

/-- **On any other stream they matter**: there are pieces with which a line is handed over
that should be refused. -/
theorem exists_feeds_ne (hchunk : 0 < chunk) (hnot : ¬ R.NeverBarelyTooLong chunk t stream) :
    ∃ pieces : List (List α), pieces.flatten = stream
      ∧ (∀ piece ∈ pieces, Tame R.sep chunk piece)
      ∧ (pieces.foldl R.feed { state := t }).state ≠ R.verdict t stream := by
  suffices h : ∃ pieces : List (List α), pieces.flatten = stream
      ∧ (∀ piece ∈ pieces, Tame R.sep chunk piece)
      ∧ w (R.verdict t stream) < w (pieces.foldl R.feed { state := t }).state by
    obtain ⟨pieces, hflat, htame, hlt⟩ := h
    exact ⟨pieces, hflat, htame, fun heq => by rw [heq] at hlt; omega⟩
  induction stream using lineInduction R.sep generalizing t with
  | rest stream hnone => exact absurd (neverBarelyTooLong_of_none hnone) hnot
  | line stream line rest hcut ih =>
      obtain ⟨rfl, hsep⟩ := cutLine_eq_some.mp hcut
      rw [neverBarelyTooLong_of_cutLine hcut] at hnot
      rw [verdict_of_cutLine hcut]
      have hflat (pieces : List (List α)) (hrest : pieces.flatten = rest) :
          (R.inFull line ++ pieces).flatten = line ++ R.sep :: rest := by
        rw [List.flatten_append, flatten_inFull, hrest, List.append_assoc]
        rfl
      have htame (pieces : List (List α)) (hlen : line.length < R.limit + chunk)
          (hrest : ∀ piece ∈ pieces, Tame R.sep chunk piece) :
          ∀ piece ∈ R.inFull line ++ pieces, Tame R.sep chunk piece :=
        fun piece hpiece => (List.mem_append.mp hpiece).elim
          (tame_inFull hchunk hsep hlen piece) (hrest piece)
      by_cases hlong : R.limit < line.length
      · -- the line itself should be refused
        rw [if_pos hlong] at hnot ⊢
        refine ⟨R.inFull line ++ singles rest, hflat _ (flatten_singles rest),
          htame _ (Nat.not_le.mp hnot) (tame_singles hchunk), ?_⟩
        have hone := hhand t line
        rw [hrefuse, List.foldl_append, feeds_inFull hsep]
        refine Nat.lt_of_lt_of_le ?_ (weight_feeds hhand hrefuse _ _)
        split
        · show w t < w (R.hand t line).1
          omega
        · show w t < w (R.hand t line).1
          omega
      · -- the line is handed over, and the trouble is behind it
        rw [if_neg hlong, not_or] at hnot
        obtain ⟨pieces, hrest, htame', hlt⟩ := ih hnot.2
        refine ⟨R.inFull line ++ pieces, hflat pieces hrest,
          htame pieces (by omega) htame', ?_⟩
        rw [if_neg hlong, if_neg hnot.1, List.foldl_append, feeds_inFull hsep, if_neg hnot.1]
        exact hlt

end Weight

end LineRules

end KvStore.Lib
