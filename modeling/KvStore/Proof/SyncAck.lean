import KvStore.Proof.Resume

/-!
# What an acknowledgement is worth

In `Sync` mode a write returns when some session in `sessions_` has acknowledged
its end offset. An offset is a place in one file, and the list of sessions does
not say which: an acknowledgement counts for the log only if its session reads the
log. Then it is worth what it says. The follower has had that much of the log, and
it loses it only to a full resync, which it is not told to make while the leader
has the log that it knows.

Writers and compaction exclude each other, by `walEpoch_`, so that the log a write
went to is the log until the write returns.
-/

namespace KvStore.Repl.Cluster

open Lib Wal Protocol

variable {lcfg fcfg : StoreConfig} {n m w : Nat} {dev : Nat}

/-- The session on a connection, and the token it has given out. -/
def Stage.talks : Stage → Option (Bytes × Session)
  | .replied leaderToken session => some (leaderToken, session)
  | .opened v => some (v.token, v.session)
  | .serving v => some (v.token, v.session)
  | _ => none

theorem sends_of_talks {stage : Stage} {token : Bytes} {session : Session}
    (h : stage.talks = some (token, session)) :
    stage.sends = some (token, session.sentOffset) := by
  cases stage with
  | queued => exact absurd h (by simp [Stage.talks])
  | identified _ _ _ => exact absurd h (by simp [Stage.talks])
  | closed => exact absurd h (by simp [Stage.talks])
  | replied leaderToken session' => cases h; rfl
  | opened v => cases h; rfl
  | serving v => cases h; rfl

/-- Up to where the session on a connection means to ship the log. -/
def Stage.aims (d : Disk) : Stage → Option Nat
  | .opened v => if v.file = d.old.length then v.loop.target else none
  | .serving v => if v.file = d.old.length then v.loop.target else none
  | _ => none

/-- Said under the token of the log, `a` bytes are a part of it that the follower has. -/
def Claim (dev : Nat) (d : Disk) (f : Follower fcfg) (token : Bytes) (a : Nat) : Prop :=
  token = d.token dev → a = 0 ∨ (f.savedToken = token ∧ a ≤ f.store.log.file.length)

theorem claim_zero (d : Disk) (f : Follower fcfg) (token : Bytes) : Claim dev d f token 0 :=
  fun _ => Or.inl rfl

/-- Everything that is said on a connection, or was said to open it. -/
structure ClaimsHold (dev : Nat) (d : Disk) (p : Peer fcfg m) (k : Fin m) (c : Socket n) :
    Prop where
  /-- Before the log is reopened, nobody ships more of it than the offset of the one before. -/
  targets : d.replaced = true → ∀ target, c.stage.aims d = some target → target ≤ d.offset
  unread : ∀ leaderToken token requested, c.stage = .identified leaderToken token requested →
    c.toLeader = []
  asked : c.stage.asking = true → Claim dev d p.follower c.asked.1 c.asked.2.length
  acks : ∀ token session, c.stage.talks = some (token, session) →
    ∃ offsets : List Nat, session.ackBuffer ++ c.toLeader = offsets.flatMap ackLine
      ∧ ∀ a ∈ session.acked :: offsets, Claim dev d p.follower token a
  /-- Nobody is told to drop the log, by a leader that has it. -/
  full : p.link = some k → c.greeted = false → ∀ line stream token,
    c.toFollower = line ++ newline :: stream → newline ∉ line →
      parseReply line = some (.full token) → p.follower.savedToken = d.token dev →
        p.follower.store.log.file = []

/-- An operation that is logged is where its end offset says. -/
def WriterOk (d : Disk) : Option Writer → Prop
  | none => True
  | some (.entered op) => op.payloads ≠ []
  | some (.appended op endOffset) => 0 < endOffset ∧ endOffset ≤ d.log.bytes.length
      ∧ op.bytes <:+ d.log.bytes.take endOffset
  | some (.applied op endOffset) => 0 < endOffset ∧ endOffset ≤ d.log.bytes.length
      ∧ op.bytes <:+ d.log.bytes.take endOffset
  | some (.waiting op endOffset) => 0 < endOffset ∧ endOffset ≤ d.log.bytes.length
      ∧ op.bytes <:+ d.log.bytes.take endOffset

/-- The leader's own books. -/
structure BooksOk (s : State lcfg fcfg n m w) : Prop where
  shippedOffset : s.disk.log.shipped ≤ s.disk.offset
  shippedBytes : s.disk.log.shipped ≤ s.disk.log.bytes.length
  offset : s.disk.replaced = false → s.disk.offset = s.disk.log.bytes.length
  locked : s.compaction ≠ .idle → ∀ t, s.writers t = none
  renamed : s.disk.replaced = true → s.compaction = .renamed
  writers : ∀ t, WriterOk s.disk (s.writers t)

/-- Everything that is said on any connection. -/
def AllClaimsHold (dev : Nat) (s : State lcfg fcfg n m w) : Prop :=
  ∀ k c, s.sockets k = some c → ClaimsHold dev s.disk (s.peers c.peer) k c

/-! ## The leader's books -/

section Books

variable {s s' : State lcfg fcfg n m w}

theorem WriterOk.append {d d' : Disk} {blob : Bytes} (hbytes : d'.log.bytes = d.log.bytes ++ blob)
    {writer : Option Writer} (h : WriterOk d writer) : WriterOk d' writer := by
  have hlogged : ∀ (op : Op) (endOffset : Nat),
      (0 < endOffset ∧ endOffset ≤ d.log.bytes.length ∧ op.bytes <:+ d.log.bytes.take endOffset) →
      0 < endOffset ∧ endOffset ≤ d'.log.bytes.length
        ∧ op.bytes <:+ d'.log.bytes.take endOffset := by
    rintro op endOffset ⟨h1, h2, h3⟩
    rw [hbytes, List.take_append_of_le_length h2, List.length_append]
    exact ⟨h1, by omega, h3⟩
  cases writer with
  | none => exact trivial
  | some writer =>
      cases writer with
      | entered op => exact h
      | appended op endOffset => exact hlogged op endOffset h
      | applied op endOffset => exact hlogged op endOffset h
      | waiting op endOffset => exact hlogged op endOffset h

/-- A client thread moves on. -/
theorem BooksOk.of_writer (h : BooksOk s) {t : Fin w} {writer : Option Writer} (blob : Bytes)
    (hbytes : s'.disk.log.bytes = s.disk.log.bytes ++ blob)
    (hoffset : s'.disk.offset = s.disk.offset + blob.length)
    (hshipped : s'.disk.log.shipped = s.disk.log.shipped)
    (hreplaced : s'.disk.replaced = s.disk.replaced) (hcompaction : s'.compaction = s.compaction)
    (hwriters : s'.writers = Function.update s.writers t writer)
    (hidle : writer ≠ none → s.compaction = .idle) (hok : WriterOk s'.disk writer) :
    BooksOk s' := by
  refine ⟨?_, ?_, ?_, ?_, ?_, ?_⟩
  · rw [hshipped, hoffset]
    exact Nat.le_trans h.shippedOffset (Nat.le_add_right _ _)
  · rw [hshipped, hbytes, List.length_append]
    exact Nat.le_trans h.shippedBytes (Nat.le_add_right _ _)
  · intro hr
    rw [hoffset, hbytes, List.length_append, h.offset (hreplaced ▸ hr)]
  · intro hc t'
    rw [hcompaction] at hc
    rw [hwriters]
    by_cases ht : t' = t
    · subst ht
      rw [Function.update_self]
      -- a thread that stays inside keeps the compaction out
      by_contra hne
      exact hc (hidle hne)
    · rw [Function.update_of_ne ht]
      exact h.locked hc t'
  · rw [hreplaced, hcompaction]
    exact h.renamed
  · intro t'
    rw [hwriters]
    by_cases ht : t' = t
    · subst ht
      rw [Function.update_self]
      exact hok
    · rw [Function.update_of_ne ht]
      exact (h.writers t').append hbytes

theorem BooksOk.idle (h : BooksOk s) {t : Fin w} {writer : Writer}
    (ht : s.writers t = some writer) : s.compaction = .idle := by
  by_contra hc
  rw [h.locked hc t] at ht
  exact absurd ht (by simp)

/-- A client thread that changes nothing but its own place. -/
theorem BooksOk.of_place (h : BooksOk s) {t : Fin w} {writer : Option Writer}
    (hdisk : s'.disk = s.disk) (hcompaction : s'.compaction = s.compaction)
    (hwriters : s'.writers = Function.update s.writers t writer)
    (hidle : writer ≠ none → s.compaction = .idle) (hok : WriterOk s.disk writer) : BooksOk s' :=
  h.of_writer [] (by rw [hdisk, List.append_nil]) (by rw [hdisk]; rfl) (by rw [hdisk])
    (by rw [hdisk]) hcompaction hwriters hidle (hdisk ▸ hok)

theorem booksOk_wrote {t : Fin w} {a : Write} (h : BooksOk s) (hs : Wrote s t a s') :
    BooksOk s' := by
  have hwriter := h.writers t
  cases hs with
  | entered hidle hop => exact h.of_place rfl rfl rfl (fun _ => hidle) hop
  | @appended op wal blob ht hfile hoffset hblob =>
      rw [ht] at hwriter
      obtain rfl := hblob hwriter
      have hidle := h.idle ht
      -- the log is open on the file at the path, as no compaction is on its way
      have hend : s.disk.offset = s.disk.log.bytes.length := by
        refine h.offset ?_
        cases hr : s.disk.replaced with
        | false => rfl
        | true => exact absurd (hidle.symm.trans (h.renamed hr)) (by simp)
      refine h.of_writer op.bytes hfile hoffset rfl rfl rfl rfl (fun _ => hidle) ?_
      show 0 < s.disk.offset + op.bytes.length ∧ s.disk.offset + op.bytes.length ≤ wal.file.length
        ∧ op.bytes <:+ wal.file.take (s.disk.offset + op.bytes.length)
      have hpos := bytes_pos hwriter
      rw [hend, hfile, ← List.length_append, List.take_length]
      refine ⟨?_, Nat.le_refl _, List.suffix_append _ _⟩
      rw [List.length_append]
      omega
  | applied ht =>
      rw [ht] at hwriter
      exact h.of_place rfl rfl rfl (fun _ => h.idle ht) hwriter
  | waits ht =>
      rw [ht] at hwriter
      exact h.of_place rfl rfl rfl (fun _ => h.idle ht) hwriter
  | left _ _ => exact h.of_place rfl rfl rfl (fun hne => absurd rfl hne) trivial

/-- **A compaction has the log to itself.** -/
theorem booksOk_compacted {a : Compact} (h : BooksOk s) (hs : Compacted s a s') : BooksOk s' := by
  -- between `rename` and `reopen` alone the offset is that of another file
  have hnot : s.compaction ≠ .renamed → s.disk.replaced = true → False :=
    fun hne hr => hne (h.renamed hr)
  cases hs with
  | renamed hidle hwriters =>
      refine ⟨Nat.zero_le _, Nat.zero_le _, fun hr => absurd hr (by simp [Disk.rename]),
        fun _ => hwriters, fun _ => rfl, ?_⟩
      intro t
      show WriterOk _ (s.writers t)
      rw [hwriters t]
      exact trivial
  | reopened hstage =>
      exact ⟨h.shippedBytes, h.shippedBytes, fun _ => rfl,
        fun _ => h.locked (by rw [hstage]; simp), fun hr => absurd hr (by simp [Disk.reopen]),
        h.writers⟩
  | listed hstage =>
      exact ⟨h.shippedOffset, h.shippedBytes, h.offset, fun _ => h.locked (by rw [hstage]; simp),
        fun hr => (hnot (by rw [hstage]; simp) hr).elim, h.writers⟩
  | stopped hstage =>
      exact ⟨h.shippedOffset, h.shippedBytes, h.offset, fun _ => h.locked (by rw [hstage]; simp),
        fun hr => (hnot (by rw [hstage]; simp) hr).elim, h.writers⟩
  | released hstage =>
      exact ⟨h.shippedOffset, h.shippedBytes, h.offset, fun hne => absurd rfl hne,
        fun hr => (hnot (by rw [hstage]; simp) hr).elim, h.writers⟩

/-- Nothing changes but what has been shipped. -/
theorem BooksOk.of_shipped (h : BooksOk s) (hbytes : s'.disk.log.bytes = s.disk.log.bytes)
    (hoffset : s'.disk.offset = s.disk.offset) (hreplaced : s'.disk.replaced = s.disk.replaced)
    (hcompaction : s'.compaction = s.compaction) (hwriters : s'.writers = s.writers)
    (hshipped : s'.disk.log.shipped ≤ s.disk.offset
      ∧ s'.disk.log.shipped ≤ s.disk.log.bytes.length) : BooksOk s' := by
  refine ⟨hoffset ▸ hshipped.1, hbytes ▸ hshipped.2, ?_, ?_, ?_, ?_⟩
  · rw [hreplaced, hoffset, hbytes]; exact h.offset
  · rw [hcompaction, hwriters]; exact h.locked
  · rw [hreplaced, hcompaction]; exact h.renamed
  · rw [hwriters]
    exact fun t => (h.writers t).append (hbytes.trans (List.append_nil _).symm)

theorem noteShipped_same (c : Socket n) (d : Disk) :
    (c.noteShipped d).log.bytes = d.log.bytes ∧ (c.noteShipped d).offset = d.offset
      ∧ (c.noteShipped d).replaced = d.replaced := by
  unfold Socket.noteShipped
  split
  · unfold Disk.noteShipped
    split
    · exact ⟨rfl, rfl, rfl⟩
    · exact ⟨rfl, rfl, rfl⟩
  · exact ⟨rfl, rfl, rfl⟩

/-- The leader has no part in the step of a follower. -/
theorem Followed.leader {i : Fin n} {a : Follow m} (h : Followed s i a s') :
    s'.disk = s.disk ∧ s'.compaction = s.compaction ∧ s'.writers = s.writers := by
  cases h <;> exact ⟨rfl, rfl, rfl⟩

/-- What a session ships of the log is not behind the log's offset. -/
theorem shipped_serves {d : Disk} {p : Peer fcfg m} {k : Fin m} {c c' : Socket n}
    (hnamed : c.stage.Named dev d) (hheld : AskedForShipped dev d c)
    (hcounted : ClaimsHold dev d p k c)
    (hoff : d.log.shipped ≤ d.offset) (hbytes : d.log.shipped ≤ d.log.bytes.length)
    (hend : d.replaced = false → d.offset = d.log.bytes.length) (hs : Serves dev d c c') :
    (c'.noteShipped d).log.shipped ≤ d.offset
      ∧ (c'.noteShipped d).log.shipped ≤ d.log.bytes.length := by
  have hnote : ∀ file sent, (file = d.old.length → sent ≤ d.offset ∧ sent ≤ d.log.bytes.length) →
      (d.noteShipped file sent).log.shipped ≤ d.offset
        ∧ (d.noteShipped file sent).log.shipped ≤ d.log.bytes.length := by
    intro file sent hsent
    rw [Disk.noteShipped]
    split
    · rename_i hfile
      obtain ⟨h1, h2⟩ := hsent hfile
      exact ⟨Nat.max_le.mpr ⟨hoff, h1⟩, Nat.max_le.mpr ⟨hbytes, h2⟩⟩
    · exact ⟨hoff, hbytes⟩
  -- a session that does not ship now has not shipped more than is noted
  have hsame : ∀ v : Served, v.Reads dev d → c.stage.sends = some (v.token, v.session.sentOffset) →
      v.file = d.old.length → v.session.sentOffset ≤ d.offset
        ∧ v.session.sentOffset ≤ d.log.bytes.length := by
    intro v hreads hsends hfile
    obtain ⟨file, hf, htoken, _⟩ := hreads
    rw [Disk.getElem?_files, if_pos hfile] at hf
    obtain rfl := Option.some.inj hf
    rw [htoken] at hsends
    have := hheld.shipped _ hsends
    exact ⟨Nat.le_trans this hoff, Nat.le_trans this hbytes⟩
  cases hs with
  | identified hstage hline hparse => exact ⟨hoff, hbytes⟩
  | complained hstage hline hparse => exact ⟨hoff, hbytes⟩
  | overlong hstage => exact ⟨hoff, hbytes⟩
  | refused hstage => exact ⟨hoff, hbytes⟩
  | replied hstage => exact ⟨hoff, hbytes⟩
  | opened hstage => exact ⟨hoff, hbytes⟩
  | @registered v hstage =>
      rw [hstage] at hnamed
      exact hnote _ _ (hsame v hnamed (by rw [hstage]; rfl))
  | @moved v loop hstage hloop =>
      rw [hstage] at hnamed
      exact hnote _ _ (hsame v hnamed (by rw [hstage]; rfl))
  | @shipped v file target count session bytes hstage hloop hfile hchunk =>
      refine hnote _ _ ?_
      intro hlast
      obtain ⟨_, _, htarget, hlen⟩ := Session.shipChunk_bytes hchunk
      rw [Disk.getElem?_files, if_pos hlast] at hfile
      obtain rfl := Option.some.inj hfile
      refine ⟨?_, hlen⟩
      show session.sentOffset ≤ d.offset
      cases hr : d.replaced with
      | false => rw [hend hr]; exact hlen
      | true =>
          refine Nat.le_trans htarget (hcounted.targets hr target ?_)
          rw [hstage, Stage.aims, if_pos hlast, hloop]
  | @drained v count hstage =>
      rw [hstage] at hnamed
      refine hnote _ _ ?_
      show v.file = _ → (v.session.drainAcks _).1.sentOffset ≤ _ ∧ _
      rw [Session.drainAcks_sentOffset]
      exact hsame v hnamed (by rw [hstage]; rfl)
  | @finished v hstage =>
      rw [hstage] at hnamed
      exact hnote _ _ (hsame v hnamed (by rw [hstage]; rfl))

end Books

/-! ## What is said on one connection -/

section Counts

variable {d d' : Disk} {p p' : Peer fcfg m} {k : Fin m} {c c' : Socket n}

/-- Under this token something was said on a connection, or to open it. -/
def Socket.Speaks (c : Socket n) (token : Bytes) : Prop :=
  (c.stage.asking = true ∧ c.asked.1 = token) ∨ ∃ sent, c.stage.sends = some (token, sent)

theorem tokenOfLog_of_speaks {token : Bytes} (hnamed : c.stage.Named dev d)
    (hheld : AskedForShipped dev d c) (h : c.Speaks token) : TokenOfLog dev d token := by
  rcases h with ⟨hasking, rfl⟩ | ⟨sent, hsends⟩
  · exact hheld.known hasking
  · exact tokenOfLog_of_sends hnamed hsends

/-- The log changes, or the follower, but not what was said. -/
theorem ClaimsHold.keep (h : ClaimsHold dev d p k c)
    (htargets : d'.replaced = true → ∀ target, c.stage.aims d' = some target → target ≤ d'.offset)
    (hclaims : ∀ token a, c.Speaks token → Claim dev d p.follower token a →
      Claim dev d' p'.follower token a)
    (hfull : p'.link = some k → p'.follower.savedToken = d'.token dev →
      p' = p ∧ d'.token dev = d.token dev) : ClaimsHold dev d' p' k c := by
  refine ⟨htargets, h.unread, fun ha => hclaims _ _ (Or.inl ⟨ha, rfl⟩) (h.asked ha), ?_, ?_⟩
  · intro token session ht
    obtain ⟨offsets, hbytes, hall⟩ := h.acks token session ht
    exact ⟨offsets, hbytes, fun a ha => hclaims _ _ (Or.inr ⟨_, sends_of_talks ht⟩) (hall a ha)⟩
  · intro hlink hnew line stream token hin hnl hparse hsaved
    obtain ⟨rfl, htoken⟩ := hfull hlink hsaved
    exact h.full hlink hnew line stream token hin hnl hparse (hsaved.trans htoken)

/-- The log grows. -/
theorem ClaimsHold.extend (h : ClaimsHold dev d p k c) (hd : d.Extends d')
    (hreplaced : d'.replaced = true → d.replaced = true ∧ d.offset ≤ d'.offset) :
    ClaimsHold dev d' p k c := by
  refine h.keep ?_ ?_ fun _ _ => ⟨rfl, hd.token⟩
  · intro hr target haims
    obtain ⟨hr', hle⟩ := hreplaced hr
    have haims : c.stage.aims d = some target := by
      unfold Stage.aims at haims ⊢
      rw [hd.old] at haims
      exact haims
    exact Nat.le_trans (h.targets hr' target haims) hle
  · intro token a _ hclaim
    rw [Claim, hd.token]
    exact hclaim

/-- A connection on which nothing new is said. -/
theorem ClaimsHold.same (h : ClaimsHold dev d p k c) (hasking : c'.stage.asking = false)
    (htalks : c'.stage.talks = c.stage.talks ∨ c'.stage.talks = none)
    (hin : c'.toFollower = c.toFollower) (hout : c'.toLeader = c.toLeader)
    (hgreeted : c'.greeted = c.greeted)
    (htargets : d.replaced = true → ∀ target, c'.stage.aims d = some target → target ≤ d.offset) :
    ClaimsHold dev d p k c' := by
  refine ⟨htargets, fun _ _ _ hi => ?_, fun ha => ?_, ?_, ?_⟩
  · rw [hi] at hasking; exact absurd hasking (by simp [Stage.asking])
  · exact absurd (hasking.symm.trans ha) (by simp)
  · intro token session ht
    rcases htalks with htalks | htalks
    · rw [hout]
      exact h.acks token session (htalks ▸ ht)
    · exact absurd (htalks.symm.trans ht) (by simp)
  · rw [hgreeted, hin]
    exact h.full

theorem ClaimsHold.close (h : ClaimsHold dev d p k c) :
    ClaimsHold dev d p k { c with stage := .closed } :=
  h.same rfl (Or.inr rfl) rfl rfl rfl fun _ _ haims => absurd haims (by simp [Stage.aims])

/-- A session that resumes starts by counting what the follower says it has. -/
theorem Claim.answered {f : Follower fcfg} {saved : Bytes} {len : Nat}
    (h : Claim dev d f saved len) :
    Claim dev d f (d.token dev) (answer (sentToken saved len) len (d.token dev) d.offset).2 := by
  rw [answer]
  split
  · rename_i hcan
    rw [savedToken_of_canResume (token_ne_dash d) hcan] at h
    exact h
  · exact claim_zero d f _

/-- Who is told to start over has nothing, or has the token of another log. -/
theorem empty_of_full {saved file : Bytes} (hsaved : saved = d.token dev)
    (hle : file.length ≤ d.offset) {line stream token : Bytes}
    (hin : (answer (sentToken saved file.length) file.length (d.token dev) d.offset).1
      = line ++ newline :: stream)
    (hnl : newline ∉ line) (hfull : parseReply line = some (.full token)) : file = [] := by
  by_contra hne
  have hlen : file.length ≠ 0 := fun hz => hne (List.length_eq_zero_iff.mp hz)
  have hcan := canResume_of_saved hsaved (replicationToken_ne_nil dev d.log.ino) hlen hle
  obtain ⟨line', hline', hnl', hparse'⟩ := answer_line (plain_token d)
    (sentToken saved file.length) file.length d.offset
  rw [hline'] at hin
  obtain ⟨rfl, _⟩ := line_unique hnl' hnl hin
  rw [hcan] at hparse'
  exact absurd (hparse'.symm.trans hfull) (by simp)

/-- What is counted after a read was counted before, or is one of the lines that were read. -/
theorem acks_drained {session : Session} {toLeader : Bytes} {offsets : List Nat} (count : Nat)
    (h : session.ackBuffer ++ toLeader = offsets.flatMap ackLine) :
    ∃ left : List Nat,
      (session.drainAcks (toLeader.take count)).1.ackBuffer ++ toLeader.drop count
          = left.flatMap ackLine
        ∧ (session.drainAcks (toLeader.take count)).1.acked :: left ⊆ session.acked :: offsets := by
  rw [← List.take_append_drop count toLeader] at h
  obtain ⟨left, hsub, hleft, hacked⟩ := Session.drainAcks_acks h
  refine ⟨left, hleft, List.cons_subset.mpr ⟨?_, List.subset_cons_of_subset _ hsub⟩⟩
  rcases hacked with hacked | hacked
  · rw [hacked]; exact List.mem_cons_self ..
  · exact List.mem_cons_of_mem _ hacked

/-- **The leader's own steps count nothing that was not said.** -/
theorem claimsHold_serves (hnamed : c.stage.Named dev d) (hheld : AskedForShipped dev d c)
    (hlinked : p.link = some k → EndsAgree dev d p.follower c) (hoff : d.log.shipped ≤ d.offset)
    (h : ClaimsHold dev d p k c) (hs : Serves dev d c c') : ClaimsHold dev d p k c' := by
  cases hs with
  | identified hstage hline hparse =>
      have hasking : c.stage.asking = true := by rw [hstage]; rfl
      obtain ⟨_, _, hrest⟩ := hheld.identified hstage hline hparse
      exact ⟨fun _ _ haims => absurd haims (by simp [Stage.aims]), fun _ _ _ _ => hrest,
        fun _ => h.asked hasking, fun _ _ ht => absurd ht (by simp [Stage.talks]), h.full⟩
  | complained hstage hline hparse =>
      refine ⟨fun _ _ haims => absurd haims (by simp [Stage.aims]),
        fun _ _ _ hi => absurd hi (by simp), fun ha => absurd ha (by simp [Stage.asking]),
        fun _ _ ht => absurd ht (by simp [Stage.talks]), ?_⟩
      intro _ _ line stream token hin _ hfull
      rw [parseSync_complaint hparse hin] at hfull
      exact absurd hfull (by simp)
  | overlong hstage => exact h.close
  | refused hstage => exact h.close
  | @replied leaderToken token requested hstage =>
      have hasking : c.stage.asking = true := by rw [hstage]; rfl
      have hask := h.asked hasking
      have hbacked := hheld.backed hasking
      obtain ⟨rfl, rfl⟩ := hheld.read _ _ _ hstage
      rw [hstage] at hnamed
      obtain rfl : leaderToken = d.token dev := hnamed
      refine ⟨fun _ _ haims => absurd haims (by simp [Stage.aims]),
        fun _ _ _ hi => absurd hi (by simp), fun ha => absurd ha (by simp [Stage.asking]), ?_, ?_⟩
      · rintro _ _ ⟨rfl, rfl⟩
        refine ⟨[], h.unread _ _ _ hstage, ?_⟩
        intro a ha
        obtain rfl := List.mem_singleton.mp ha
        exact hask.answered
      · intro hlink _ line stream token hin hnl hfull hsaved
        obtain ⟨_, _, _, hasked⟩ := (hlinked hlink).of_asking hasking
        rw [hasked] at hin hbacked
        exact empty_of_full hsaved (Nat.le_trans (hbacked hsaved).2 hoff) hin hnl hfull
  | opened hstage =>
      refine h.same rfl (Or.inl (by rw [hstage]; rfl)) rfl rfl rfl ?_
      intro _ target haims
      exact absurd haims (by simp [Stage.aims, Loop.target])
  | @registered v hstage =>
      refine h.same rfl (Or.inl (by rw [hstage]; rfl)) rfl rfl rfl ?_
      exact fun hr target haims => h.targets hr target (by rw [hstage]; exact haims)
  | @moved v loop hstage hloop =>
      refine h.same rfl (Or.inl (by rw [hstage]; rfl)) rfl rfl rfl ?_
      intro hr target haims
      rcases hloop with hloop | hloop | hloop
      · exact absurd haims (by simp [Stage.aims, hloop])
      · simp only [Stage.aims, hloop] at haims
        split at haims
        · exact Nat.le_of_eq (Option.some.inj haims).symm
        · exact absurd haims (by simp)
      · refine h.targets hr target ?_
        rw [hstage, Stage.aims, ← hloop]
        exact haims
  | @shipped v file target count session bytes hstage hloop hfile hchunk =>
      obtain ⟨hacked, hbuffer⟩ := Session.shipChunk_acks hchunk
      refine ⟨?_, fun _ _ _ hi => absurd hi (by simp),
        fun ha => absurd ha (by simp [Stage.asking]), ?_, ?_⟩
      · intro hr target' haims
        refine h.targets hr target' ?_
        rw [hstage, Stage.aims, hloop]
        exact haims
      · rintro _ _ ⟨rfl, rfl⟩
        rw [hacked, hbuffer]
        exact h.acks v.token v.session (by rw [hstage]; rfl)
      · -- the line that is read first is there already
        intro hlink hnew line stream token hin hnl hfull
        obtain ⟨whole, _, _, hears, _, _⟩ := (hlinked hlink).of_sends (by rw [hstage]; rfl)
        rw [show c.greeted = false from hnew] at hears
        obtain ⟨line₀, stream₀, hin₀, hnl₀⟩ := hears.line
        have hin : c.toFollower ++ bytes = line ++ newline :: stream := hin
        rw [hin₀, List.append_assoc, List.cons_append] at hin
        obtain ⟨rfl, _⟩ := line_unique hnl₀ hnl hin
        exact h.full hlink hnew line₀ stream₀ token hin₀ hnl hfull
  | @drained v count hstage =>
      refine ⟨fun hr target haims => h.targets hr target (by rw [hstage]; exact haims),
        fun _ _ _ hi => absurd hi (by simp), fun ha => absurd ha (by simp [Stage.asking]), ?_,
          h.full⟩
      rintro _ _ ⟨rfl, rfl⟩
      obtain ⟨offsets, hbytes, hall⟩ := h.acks v.token v.session (by rw [hstage]; rfl)
      obtain ⟨left, hleft, hsub⟩ := acks_drained count hbytes
      exact ⟨left, hleft, fun a ha => hall a (hsub ha)⟩
  | @finished v hstage =>
      refine h.same rfl (Or.inl (by rw [hstage]; rfl)) rfl rfl rfl ?_
      exact fun hr target haims => h.targets hr target (by rw [hstage]; exact haims)

/-- A follower that has read the reply says how far it is. -/
theorem ClaimsHold.say (h : ClaimsHold dev d p k c) (hasking : c.stage.asking = false)
    (hclaims : ∀ token a, Claim dev d p.follower token a → Claim dev d p'.follower token a)
    (hstage : c'.stage = c.stage) (hgreeted : c'.greeted = true) (said : List Nat)
    (hout : c'.toLeader = c.toLeader ++ said.flatMap ackLine)
    (hsaid : ∀ token session, c.stage.talks = some (token, session) → ∀ a ∈ said,
      p'.follower.savedToken = token ∧ a = p'.follower.store.log.file.length) :
    ClaimsHold dev d p' k c' := by
  refine ⟨?_, fun _ _ _ hi => ?_, fun ha => ?_, ?_, fun _ hnew => ?_⟩
  · rw [hstage]; exact h.targets
  · rw [← hstage, hi] at hasking; exact absurd hasking (by simp [Stage.asking])
  · rw [← hstage, ha] at hasking; exact absurd hasking (by simp)
  · intro token session ht
    rw [hstage] at ht
    obtain ⟨offsets, hbytes, hall⟩ := h.acks token session ht
    refine ⟨offsets ++ said, by rw [hout, ← List.append_assoc, hbytes, List.flatMap_append], ?_⟩
    intro a ha
    rw [← List.cons_append] at ha
    rcases List.mem_append.mp ha with ha | ha
    · exact hclaims token a (hall a ha)
    · obtain ⟨hsaved, rfl⟩ := hsaid token session ht a ha
      exact fun _ => Or.inr ⟨hsaved, Nat.le_refl _⟩
  · exact absurd (hgreeted.symm.trans hnew) (by simp)

/-- **A full resync drops no byte of the log that the leader has.** -/
theorem ClaimsHold.greet (h : ClaimsHold dev d p k c) (hlink : p.link = some k)
    (hnew : c.greeted = false) {line rest : Bytes} {f : Follower fcfg}
    (hline : readLine [] c.toFollower = .line line rest)
    (hreply : p.follower.onReply line true true = (f, .ok ())) {token : Bytes} {a : Nat}
    (hclaim : Claim dev d p.follower token a) : Claim dev d f token a := by
  obtain ⟨hin, hnl⟩ := readLine_line hline List.not_mem_nil
  rw [Follower.onReply] at hreply
  split at hreply
  · exact absurd (Prod.mk.inj hreply).2 (by simp)
  · obtain rfl := (Prod.mk.inj hreply).1
    exact hclaim
  · rename_i token' hfull
    intro htoken
    rcases hclaim htoken with hzero | ⟨hsaved, hle⟩
    · exact Or.inl hzero
    · have hempty := h.full hlink hnew line rest token' hin hnl hfull (hsaved.trans htoken)
      rw [hempty] at hle
      exact Or.inl (Nat.le_zero.mp hle)

theorem Claim.carry {f f' : Follower fcfg} {token : Bytes} {a : Nat} (h : Claim dev d f token a)
    (hsaved : f'.savedToken = f.savedToken)
    (hlen : f.store.log.file.length ≤ f'.store.log.file.length) : Claim dev d f' token a := by
  intro htoken
  rcases h htoken with hzero | ⟨htoken', hle⟩
  · exact Or.inl hzero
  · exact Or.inr ⟨hsaved.trans htoken', Nat.le_trans hle hlen⟩

/-- No session ships a log that nobody has opened. -/
theorem aims_rename {stage : Stage} (h : stage.Named dev d) (ino : Nat) (bytes : Bytes) :
    stage.aims (d.rename ino bytes) = none := by
  have hfile : ∀ v : Served, v.Reads dev d → v.file ≠ (d.rename ino bytes).old.length := by
    rintro v ⟨file, hfile, _⟩ heq
    have := Disk.le_of_getElem?_files hfile
    rw [heq, show (d.rename ino bytes).old = d.old ++ [d.log] from rfl, List.length_append] at this
    simp at this
  cases stage with
  | queued => rfl
  | identified _ _ _ => rfl
  | replied _ _ => rfl
  | closed => rfl
  | opened v => rw [Stage.aims, if_neg (hfile v h)]
  | serving v => rw [Stage.aims, if_neg (hfile v h)]

end Counts

/-! ## Steps -/

section Steps

variable {s s' : State lcfg fcfg n m w}

/-- The log grows, and connections change that say nothing new. -/
theorem AllClaimsHold.of_extends (h : AllClaimsHold dev s) (hdisk : s.disk.Extends s'.disk)
    (hreplaced : s'.disk.replaced = true →
      s.disk.replaced = true ∧ s.disk.offset ≤ s'.disk.offset)
    (hpeers : s'.peers = s.peers)
    (hsockets : ∀ k c', s'.sockets k = some c' → ∃ c, s.sockets k = some c ∧ c'.peer = c.peer
      ∧ (ClaimsHold dev s.disk (s.peers c.peer) k c →
        ClaimsHold dev s.disk (s.peers c.peer) k c')) :
    AllClaimsHold dev s' := by
  intro k c' hc'
  obtain ⟨c, hc, hpeer, hcounted⟩ := hsockets k c' hc'
  rw [hpeers, hpeer]
  exact (hcounted (h k c hc)).extend hdisk hreplaced

theorem allClaimsHold_rename (hinv : PrefixInv dev s) (h : AllClaimsHold dev s) {ino : Nat}
    (hfresh : ∀ file ∈ s.disk.files, file.ino ≠ ino) {bytes : Bytes} {compaction : Compaction m} :
    AllClaimsHold dev { s with compaction := compaction, disk := s.disk.rename ino bytes } := by
  intro k c hc
  have hnamed := hinv.tokens.named k c hc
  refine (h k c hc).keep ?_ ?_ ?_
  · intro _ target haims
    exact absurd ((aims_rename hnamed ino bytes).symm.trans haims) (by simp)
  · intro token a hspeaks _ htoken
    exact absurd htoken ((tokenOfLog_of_speaks hnamed (hinv.held k c hc) hspeaks).ne_rename hfresh)
  · intro _ hsaved
    exact absurd hsaved ((hinv.peers c.peer).known.ne_rename hfresh)

theorem claimsHold_stop {d : Disk} {p : Peer fcfg m} {k : Fin m} {c : Socket n}
    (h : ClaimsHold dev d p k c) : ClaimsHold dev d p k c.stop := by
  unfold Socket.stop
  split
  · rename_i hstage
    refine h.same rfl (Or.inl (by rw [hstage]; rfl)) rfl rfl rfl ?_
    exact fun hr target haims => h.targets hr target (by rw [hstage]; exact haims)
  · exact h

theorem allClaimsHold_compacted {a : Compact} (hinv : PrefixInv dev s) (h : AllClaimsHold dev s)
    (hfresh : Fresh s (.compact a)) (hs : Compacted s a s') : AllClaimsHold dev s' := by
  cases hs with
  | renamed hidle hwriters => exact allClaimsHold_rename hinv h hfresh
  | reopened hstage =>
      exact h.of_extends ⟨rfl, rfl, List.prefix_rfl, Nat.le_refl _⟩
        (fun hr => absurd hr (by simp [Disk.reopen])) rfl fun k c hc => ⟨c, hc, rfl, id⟩
  | listed hstage =>
      exact h.of_extends (.refl _) (fun hr => ⟨hr, Nat.le_refl _⟩) rfl
        fun k c hc => ⟨c, hc, rfl, id⟩
  | stopped hstage =>
      refine h.of_extends (.refl _) (fun hr => ⟨hr, Nat.le_refl _⟩) rfl ?_
      refine forall_update ?_ fun k c _ hc => ⟨c, hc, rfl, id⟩
      intro c' hc'
      obtain ⟨c, hc, rfl⟩ := Option.map_eq_some_iff.mp hc'
      refine ⟨c, hc, ?_, claimsHold_stop⟩
      unfold Socket.stop
      split <;> rfl
  | released hstage =>
      exact h.of_extends (.refl _) (fun hr => ⟨hr, Nat.le_refl _⟩) rfl
        fun k c hc => ⟨c, hc, rfl, id⟩

/-- The connections of a follower, other than the one it has now. -/
theorem AllClaimsHold.other (h : AllClaimsHold dev s) {i : Fin n} {p : Peer fcfg m}
    (hclaims : ∀ token a, Claim dev s.disk (s.peers i).follower token a →
      Claim dev s.disk p.follower token a)
    {k : Fin m} {c : Socket n} (hc : s.sockets k = some c) (hlink : p.link ≠ some k) :
    ClaimsHold dev s.disk (Function.update s.peers i p c.peer) k c := by
  by_cases hi : c.peer = i
  · have hcounted := h k c hc
    rw [hi] at hcounted
    rw [hi, Function.update_self]
    exact hcounted.keep hcounted.targets (fun token a _ => hclaims token a)
      fun hl => absurd hl hlink
  · rw [Function.update_of_ne hi]
    exact h k c hc

theorem AllClaimsHold.leaves (h : AllClaimsHold dev s) {i : Fin n} {f : Follower fcfg}
    (hclaims : ∀ token a, Claim dev s.disk (s.peers i).follower token a →
      Claim dev s.disk f token a) :
    AllClaimsHold dev (s.setPeer i { follower := f }) :=
  fun _ _ hc => h.other hclaims hc (by simp)

theorem AllClaimsHold.follows (h : AllClaimsHold dev s) {i : Fin n} {k : Fin m} {f : Follower fcfg}
    {c : Socket n} (hpeer : c.peer = i)
    (hclaims : ∀ token a, Claim dev s.disk (s.peers i).follower token a →
      Claim dev s.disk f token a)
    (hcounted : ClaimsHold dev s.disk { follower := f, link := some k } k c) :
    AllClaimsHold dev ((s.setPeer i { follower := f, link := some k }).setSocket k c) := by
  refine forall_update ?_ ?_
  · rintro _ ⟨rfl⟩
    show ClaimsHold dev s.disk (Function.update s.peers i _ c.peer) k c
    rw [hpeer, Function.update_self]
    exact hcounted
  · intro k' c' hk hc'
    exact h.other hclaims hc' fun hl => hk (Option.some.inj hl).symm

/-- A follower that is killed finds no less of its log than it had. -/
def KeepsLogs (s : State lcfg fcfg n m w) : Act n m w → Prop
  | .follow i (.kill count part keep) => (s.peers i).follower.store.log.file.length
      ≤ (Store.openOn fcfg (killedFile s i count part keep)).log.file.length
  | _ => True

instance (s : State lcfg fcfg n m w) : ∀ a, Decidable (KeepsLogs s a)
  | .follow i (.kill count part keep) =>
      inferInstanceAs (Decidable ((s.peers i).follower.store.log.file.length
        ≤ (Store.openOn fcfg (killedFile s i count part keep)).log.file.length))
  | .follow _ (.connect _) | .follow _ .greet | .follow _ (.read _) | .follow _ .hangUp
  | .write .. | .compact _ | .sync | .reap | .serve .. | .crash .. => isTrue trivial

/-- A follower that reads on says how far it is, or nothing. -/
theorem AllClaimsHold.receives (hF : fcfg.logEnabled = true) (hinv : PrefixInv dev s)
    (h : AllClaimsHold dev s) {i : Fin n} {k : Fin m} {c c' : Socket n} {chunk rest : Bytes}
    {f : Follower fcfg} {o : Option Nat} (hlink : (s.peers i).link = some k)
    (hc : s.sockets k = some c) (hgreeted : c.greeted = true)
    (hchunk : c.toFollower = chunk ++ rest)
    (hreceive : (s.peers i).follower.receive chunk {} = (f, .ok o)) (hstage : c'.stage = c.stage)
    (hpeer : c'.peer = c.peer) (hgreeted' : c'.greeted = true)
    (hout : c'.toLeader = c.toLeader ++ o.toList.flatMap ackLine) :
    AllClaimsHold dev ((s.setPeer i { follower := f, link := some k }).setSocket k c') := by
  obtain ⟨hsaved, _, hpre, _, _, hoffset⟩ :=
    Follower.receive_log hF _ (hinv.peers i).offset hreceive
  obtain ⟨hmine, hasking, _, _, _, hlinks⟩ :=
    hinv.receives hF hlink hc hgreeted hchunk hreceive
  have hclaims : ∀ token a, Claim dev s.disk (s.peers i).follower token a →
      Claim dev s.disk f token a := fun _ _ hclaim => hclaim.carry hsaved hpre.length_le
  have hcounted := h k c hc
  rw [hmine] at hcounted
  refine h.follows (hpeer.trans hmine) hclaims
    (hcounted.say hasking hclaims hstage hgreeted' o.toList hout ?_)
  intro token session ht a ha
  obtain rfl : o = some a := by
    cases o with
    | none => exact absurd ha (by simp)
    | some b => rw [List.mem_singleton.mp ha]
  -- the connection that it hears is the one that sends
  have hl : EndsAgree dev s.disk f { c with toFollower := rest } := hlinks _ rfl _ rfl hgreeted rfl
  exact ⟨hl.saved hgreeted (sends_of_talks ht), hoffset a rfl⟩

/-- **The steps of a follower say what it has.** -/
theorem allClaimsHold_followed (hF : fcfg.logEnabled = true) (hinv : PrefixInv dev s)
    (hinv' : PrefixInv dev s') (h : AllClaimsHold dev s) {i : Fin n} {a : Follow m}
    (hkeep : KeepsLogs s (.follow i a)) (hs : Followed s i a s') : AllClaimsHold dev s' := by
  cases hs with
  | @connected k hlink hfree =>
      refine h.follows rfl (fun _ _ => id) ⟨?_, fun _ _ _ hid => absurd hid (by simp),
        fun _ _ => Or.inr ⟨rfl, Nat.le_refl _⟩, ?_, ?_⟩
      · exact fun _ _ haims => absurd haims (by simp [Stage.aims])
      · exact fun _ _ ht => absurd ht (by simp [Stage.talks])
      · exact fun _ _ _ _ _ hin => absurd hin (by simp)
  | @greeted k c line rest f hlink hc hnew hline hreply =>
      obtain ⟨c₀, hc₀, hpeer, _⟩ := (hinv.peers i).linked k hlink
      obtain rfl := Option.some.inj (hc.symm.trans hc₀)
      obtain ⟨hoffset, hl⟩ : f.store.log.offset = f.store.log.file.length ∧ EndsAgree dev s.disk f
          { c with
            toFollower := rest, greeted := true
            toLeader := c.toLeader ++ ackLine f.store.logOffset } := by
        have hi := hinv'.peers i
        simp only [acknowledge, State.setPeer, State.setSocket, Function.update_self] at hi
        obtain ⟨c', hc', _, hl⟩ := hi.linked k rfl
        rw [Function.update_self] at hc'
        obtain rfl := Option.some.inj hc'
        exact ⟨hi.offset, hl⟩
      have hcounted := h k c hc
      rw [hpeer] at hcounted
      -- a full resync drops nothing that is said of the log there is
      have hclaims : ∀ token a, Claim dev s.disk (s.peers i).follower token a →
          Claim dev s.disk f token a :=
        fun _ _ hclaim => hcounted.greet hlink hnew hline hreply hclaim
      refine h.follows hpeer hclaims (hcounted.say (hl.answered rfl) hclaims rfl rfl
        [f.store.logOffset] (by simp) ?_)
      intro token session ht a ha
      rw [List.mem_singleton.mp ha, Store.logOffset, if_pos hF, hoffset]
      exact ⟨hl.saved rfl (sends_of_talks ht), rfl⟩
  | refused hlink hc hnew hline hreply =>
      obtain rfl := onReply_error hF hreply
      exact h.leaves fun _ _ hclaim => hclaim
  | waited hlink hc hgreeted hchunk hreceive =>
      exact h.receives hF hinv hlink hc hgreeted hchunk hreceive rfl rfl hgreeted (by simp)
  | advanced hlink hc hgreeted hchunk hreceive =>
      exact h.receives hF hinv hlink hc hgreeted hchunk hreceive rfl rfl hgreeted (by simp)
  | dropped hlink hc hgreeted hchunk hreceive =>
      obtain ⟨hsaved, _, hpre, _⟩ := Follower.receive_log hF _ (hinv.peers i).offset hreceive
      exact h.leaves fun _ _ hclaim => hclaim.carry hsaved hpre.length_le
  | left hlink => exact h.leaves fun _ _ hclaim => hclaim
  -- the kill leaves no less of the log than there was
  | killed count part keep => exact h.leaves fun _ _ hclaim => hclaim.carry rfl hkeep

end Steps

/-! ## Whole runs -/

/-- A write is confirmed when every session in the list has the log open. -/
def Current (s : State lcfg fcfg n m w) : Act n m w → Prop
  | .write _ .confirm =>
      ∀ k, (s.sessions k).all (fun v => decide (v.file = s.disk.old.length)) = true
  | _ => True

instance (s : State lcfg fcfg n m w) : ∀ a, Decidable (Current s a)
  | .write _ .confirm => inferInstanceAs (Decidable
      (∀ k, (s.sessions k).all (fun v => decide (v.file = s.disk.old.length)) = true))
  | .write _ (.enter _) | .write _ .append | .write _ .apply | .write _ .announce | .write _ .expire
  | .compact _ | .sync | .reap | .serve .. | .follow .. | .crash .. => isTrue trivial

/-- Offsets mean the log, for the leader and for those who acknowledge them. -/
def InSync (s : State lcfg fcfg n m w) (a : Act n m w) : Prop :=
  Telling s a ∧ KeepsLogs s a ∧ Current s a

instance (s : State lcfg fcfg n m w) (a : Act n m w) : Decidable (InSync s a) :=
  inferInstanceAs (Decidable (_ ∧ _))

/-- What is true of a cluster whose writers wait for acknowledgements. -/
structure AckInv (dev : Nat) (s : State lcfg fcfg n m w) : Prop where
  history : PrefixInv dev s
  books : BooksOk s
  counted : AllClaimsHold dev s

theorem booksOk_crash (hL : lcfg.logEnabled = true) {s s' : State lcfg fcfg n m w}
    {torn : Option (Fin w × Nat)} {keep : Nat}
    (hkeep : s.disk.log.shipped ≤ (crashed s torn keep).log.file.length)
    (hdisk : s'.disk = s.disk.restart (crashed s torn keep)) (hwriters : ∀ t, s'.writers t = none) :
    BooksOk s' := by
  have hoffset : (crashed s torn keep).log.offset = (crashed s torn keep).log.file.length :=
    openOn_offset hL _
  refine ⟨?_, ?_, ?_, fun _ => hwriters, ?_, fun t => ?_⟩
  · rw [hdisk]
    exact Nat.le_trans hkeep (Nat.le_of_eq hoffset.symm)
  · rw [hdisk]; exact hkeep
  · intro _
    rw [hdisk]; exact hoffset
  · intro hr
    rw [hdisk] at hr
    exact absurd hr (by simp [Disk.restart])
  · rw [hwriters t]; trivial

theorem booksOk_step (hL : lcfg.logEnabled = true) {mode : ReplMode} {s s' : State lcfg fcfg n m w}
    {a : Act n m w} (h : AckInv dev s) (hkeep : KeepsShipped s a)
    (hs : step dev mode s a = some s') : BooksOk s' := by
  obtain ⟨hinv, hbooks, hcounted⟩ := h
  cases a with
  | write t a => exact booksOk_wrote hbooks (stepWrite_effect hs)
  | compact a => exact booksOk_compacted hbooks (stepCompact_effect hs)
  | sync =>
      rw [step] at hs
      split at hs
      · exact absurd hs (by simp)
      · cases hs
        exact hbooks.of_shipped rfl rfl rfl rfl rfl ⟨hbooks.shippedOffset, hbooks.shippedBytes⟩
  | reap =>
      rw [step] at hs
      split at hs
      · exact absurd hs (by simp)
      · cases hs
        exact hbooks.of_shipped rfl rfl rfl rfl rfl ⟨hbooks.shippedOffset, hbooks.shippedBytes⟩
  -- a session may have shipped more, and nothing else of the books is its business
  | serve k a =>
      obtain ⟨c, c', hc, hserves, rfl⟩ := stepServe_effect hs
      obtain ⟨hbytes, hoffset, hreplaced⟩ := noteShipped_same c' s.disk
      exact hbooks.of_shipped hbytes hoffset hreplaced rfl rfl
        (shipped_serves (hinv.tokens.named k c hc) (hinv.held k c hc) (hcounted k c hc)
          hbooks.shippedOffset hbooks.shippedBytes hbooks.offset hserves)
  | follow i a =>
      obtain ⟨hdisk, hcompaction, hwriters⟩ := (stepFollow_effect hs).leader
      refine hbooks.of_shipped ?_ ?_ ?_ hcompaction hwriters ?_
      · rw [hdisk]
      · rw [hdisk]
      · rw [hdisk]
      · rw [hdisk]; exact ⟨hbooks.shippedOffset, hbooks.shippedBytes⟩
  | crash torn keep =>
      rw [step] at hs
      split at hs
      · cases hs
        exact booksOk_crash hL hkeep rfl fun _ => rfl
      · exact absurd hs (by simp)

theorem allClaimsHold_step (hF : fcfg.logEnabled = true) {mode : ReplMode}
    {s s' : State lcfg fcfg n m w} {a : Act n m w} (h : AckInv dev s) (hinv' : PrefixInv dev s')
    (hfresh : Fresh s a) (hlogs : KeepsLogs s a) (hs : step dev mode s a = some s') :
    AllClaimsHold dev s' := by
  obtain ⟨hinv, hbooks, hcounted⟩ := h
  cases a with
  | write t a =>
      obtain ⟨hdisk, hsockets, hpeers, hreplaced, hoffset⟩ := (stepWrite_effect hs).frame
      refine hcounted.of_extends hdisk (fun hr => ⟨hreplaced ▸ hr, hoffset⟩) hpeers ?_
      rw [hsockets]
      exact fun k c hc => ⟨c, hc, rfl, id⟩
  | compact a => exact allClaimsHold_compacted hinv hcounted hfresh (stepCompact_effect hs)
  | sync =>
      rw [step] at hs
      split at hs
      · exact absurd hs (by simp)
      · cases hs
        exact hcounted.of_extends ⟨rfl, rfl, List.prefix_rfl, Nat.le_refl _⟩
          (fun hr => ⟨hr, Nat.le_refl _⟩) rfl fun k c hc => ⟨c, hc, rfl, id⟩
  | reap =>
      rw [step] at hs
      split at hs
      · exact absurd hs (by simp)
      · cases hs
        refine hcounted.of_extends (.refl _) (fun hr => ⟨hr, Nat.le_refl _⟩) rfl ?_
        intro k c' hc'
        obtain ⟨c, hc, rfl⟩ := Option.map_eq_some_iff.mp hc'
        rcases reap_eq c with heq | heq
        · rw [heq]; exact ⟨c, hc, rfl, id⟩
        · rw [heq]; exact ⟨c, hc, rfl, ClaimsHold.close⟩
  | serve k a =>
      obtain ⟨c, c', hc, hserves, rfl⟩ := stepServe_effect hs
      obtain ⟨_, hoffset, hreplaced⟩ := noteShipped_same c' s.disk
      refine hcounted.of_extends (extends_socket_noteShipped c' s.disk)
        (fun hr => ⟨hreplaced ▸ hr, Nat.le_of_eq hoffset.symm⟩) rfl ?_
      refine forall_update ?_ fun k c _ hc => ⟨c, hc, rfl, id⟩
      rintro _ ⟨rfl⟩
      refine ⟨c, hc, by cases hserves <;> rfl, fun hcount => ?_⟩
      refine claimsHold_serves (hinv.tokens.named k c hc) (hinv.held k c hc) ?_ hbooks.shippedOffset
        hcount hserves
      intro hlink
      obtain ⟨c₀, hc₀, _, hl⟩ := (hinv.peers c.peer).linked k hlink
      obtain rfl := Option.some.inj (hc.symm.trans hc₀)
      exact hl
  | follow i a => exact allClaimsHold_followed hF hinv hinv' hcounted hlogs (stepFollow_effect hs)
  | crash torn keep =>
      rw [step] at hs
      split at hs
      · cases hs
        intro k c' hc'
        obtain ⟨c, hc, rfl⟩ := Option.map_eq_some_iff.mp hc'
        -- a closed connection has nothing to say; what is unread on it still counts
        refine (hcounted k c hc).close.keep ?_ ?_ fun _ _ => ⟨rfl, rfl⟩
        · exact fun _ _ haims => absurd haims (by simp [Stage.aims])
        · rintro token a (⟨hasking, _⟩ | ⟨_, hsends⟩)
          · exact absurd hasking (by simp [Stage.asking])
          · exact absurd hsends (by simp [Stage.sends])
      · exact absurd hs (by simp)

theorem ackInv_reachable (hL : lcfg.logEnabled = true) (hF : fcfg.logEnabled = true)
    {mode : ReplMode} {ino : Nat} {file : Bytes} {s : State lcfg fcfg n m w}
    (h : (system lcfg fcfg n m w dev mode ino file).ReachableBy
      (fun s a => Telling s a ∧ KeepsLogs s a) s) : AckInv dev s := by
  have hstart : ∀ s, (system lcfg fcfg n m w dev mode ino file).init s → AckInv dev s := by
    intro s hs
    refine ⟨prefixInv_reachable hL hF (.init hs), ?_, ?_⟩
    · obtain rfl := hs
      exact ⟨Nat.zero_le _, Nat.zero_le _, fun _ => openOn_offset hL _, fun hne => absurd rfl hne,
        fun hr => absurd hr (by simp), fun _ => trivial⟩
    · obtain rfl := hs
      exact fun k c hc => absurd hc (by simp)
  refine h.invariant (I := AckInv dev) hstart ?_
  rintro s a s' hi ⟨hok, hlogs⟩ hs
  have hinv' := prefixInv_step hL hF hi.history hok hs
  exact ⟨hinv', booksOk_step hL hi hok.2.2 hs, allClaimsHold_step hF hi hinv' hok.1 hlogs hs⟩

/-- What the predicate of `onAppend` has found, in a writer that returns by it. -/
theorem confirm_acked {mode : ReplMode} {s s' : State lcfg fcfg n m w} {t : Fin w}
    (hs : step dev mode s (.write t .confirm) = some s') :
    ∃ op endOffset k v, s.writers t = some (.waiting op endOffset) ∧ s.sessions k = some v
      ∧ endOffset ≤ v.session.acked := by
  rw [step, stepWrite] at hs
  split at hs
  · rename_i op endOffset hwriter
    split at hs
    · rename_i hacked
      obtain ⟨k, hk⟩ := hacked
      obtain ⟨v, hv, hle⟩ := (Option.any_eq_true _ _).mp hk
      exact ⟨op, endOffset, k, v, hwriter, hv, of_decide_eq_true hle⟩
    · exact absurd hs (by simp)
  · exact absurd hs (by simp)

/--
**A write that `Sync` confirms is on two machines**: when `onAppend` returns by an
acknowledgement, the log up to the end of the write is in the log of a follower.
-/
theorem confirmed_replicated (hL : lcfg.logEnabled = true) (hF : fcfg.logEnabled = true)
    {mode : ReplMode} {ino : Nat} {file : Bytes} {s s' : State lcfg fcfg n m w} {t : Fin w}
    (h : (system lcfg fcfg n m w dev mode ino file).ReachableBy InSync s)
    (hok : InSync s (.write t .confirm)) (hs : step dev mode s (.write t .confirm) = some s') :
    ∃ op endOffset i, s.writers t = some (.waiting op endOffset)
      ∧ endOffset ≤ s.disk.log.bytes.length ∧ op.bytes <:+ s.disk.log.bytes.take endOffset
      ∧ s.disk.log.bytes.take endOffset <+: (s.peers i).follower.store.log.file := by
  obtain ⟨hinv, hbooks, hcounted⟩ :=
    ackInv_reachable hL hF (h.mono fun _ _ hok => ⟨hok.1, hok.2.1⟩)
  obtain ⟨op, endOffset, k, v, hwriter, hsession, hacked⟩ := confirm_acked hs
  have hlogged := hbooks.writers t
  rw [hwriter] at hlogged
  obtain ⟨hpos, hle, hsuffix⟩ := hlogged
  obtain ⟨c, hc, hstage⟩ := sessions_some hsession
  -- the session reads the log, so that its token is the log's
  have hlast : v.file = s.disk.old.length := by
    have := hok.2.2 k
    rw [hsession] at this
    simpa using this
  have hnamed := hinv.tokens.named k c hc
  rw [hstage] at hnamed
  obtain ⟨log, hlog, htoken, _⟩ := hnamed
  rw [Disk.getElem?_files, if_pos hlast] at hlog
  obtain rfl := Option.some.inj hlog
  obtain ⟨_, _, hclaims⟩ := (hcounted k c hc).acks v.token v.session (by rw [hstage]; rfl)
  refine ⟨op, endOffset, c.peer, hwriter, hle, hsuffix, ?_⟩
  rcases hclaims _ (List.mem_cons_self ..) htoken with hzero | ⟨hsaved, hhas⟩
  · omega
  · -- both the write and the follower's log are beginnings of the leader's
    obtain ⟨hpre, _⟩ := (hinv.peers c.peer).backed (hsaved.trans htoken)
    have hlen := Nat.le_trans hacked hhas
    exact List.prefix_of_prefix_length_le (List.take_prefix _ _) hpre
      (by rw [List.length_take]; omega)

/-- A follower that has opened a session acknowledges the write it is sent. -/
theorem confirmed_replicated_acked :
    ∃ s s', (system standalone standalone 1 1 1 1 .sync 5 []).ReachableBy InSync s
      ∧ step 1 .sync s (.write 0 .confirm) = some s'
      ∧ ∃ op endOffset i, s.writers 0 = some (.waiting op endOffset)
        ∧ endOffset ≤ s.disk.log.bytes.length ∧ op.bytes <:+ s.disk.log.bytes.take endOffset
        ∧ s.disk.log.bytes.take endOffset <+: (s.peers i).follower.store.log.file := by
  obtain ⟨s, s', hreach, hs, hok⟩ := System.exists_reachableBy_some
    (g := fun s => step 1 .sync s (.write 0 .confirm))
    (p := fun s _ => InSync s (.write 0 .confirm))
    (show (system standalone standalone 1 1 1 1 .sync 5 []).ReachableBy InSync _ from .init rfl)
    ([.follow 0 (.connect 0), .serve 0 .identify, .serve 0 .reply, .serve 0 .openLog,
        .serve 0 .register, .follow 0 .greet] ++ putSteps 0 (.set [97] [49]) ++ shipSteps 0
      ++ [.follow 0 (.read 1000), .serve 0 (.drain 1000)])
    (by decide +kernel) (by decide +kernel)
  exact ⟨s, s', hreach, hs, confirmed_replicated rfl rfl hreach hok hs⟩

/--
A session of the log before the compaction has acknowledged as many bytes of it as
the new log has behind the next write.
-/
theorem not_confirmed_replicated_stale :
    ∃ s s', (system standalone standalone 1 1 1 1 .sync 5 []).ReachableBy
        (fun s a => Telling s a ∧ KeepsLogs s a) s
      ∧ step 1 .sync s (.write 0 .confirm) = some s'
      ∧ (∃ op, s.writers 0 = some (.waiting op 38)) ∧ s.disk.log.bytes.length = 38
      ∧ ∀ i, ¬ s.disk.log.bytes.take 38 <+: (s.peers i).follower.store.log.file := by
  obtain ⟨s, s', hreach, hs, hwriter, hlen, hall⟩ := System.exists_reachableBy_some
    (g := fun s => step 1 .sync s (.write 0 .confirm))
    (p := fun s _ => s.writers 0 = some (.waiting (.set [98] [51]) 38)
      ∧ s.disk.log.bytes.length = 38
      ∧ ∀ i, ¬ s.disk.log.bytes.take 38 <+: (s.peers i).follower.store.log.file)
    (show (system standalone standalone 1 1 1 1 .sync 5 []).ReachableBy
      (fun s a => Telling s a ∧ KeepsLogs s a) _ from .init rfl)
    (putSteps 0 (.set [97] [49]) ++ putSteps 0 (.set [97] [50])
      ++ [.follow 0 (.connect 0), .serve 0 .identify, .serve 0 .reply, .serve 0 .openLog,
        .serve 0 .register, .follow 0 .greet] ++ shipSteps 0
      ++ [.follow 0 (.read 1000), .serve 0 (.drain 1000)] ++ compactSteps 6 1
      ++ putSteps 0 (.set [98] [51]))
    (by decide +kernel) (by decide +kernel)
  exact ⟨s, s', hreach, hs, ⟨_, hwriter⟩, hlen, hall⟩

end KvStore.Repl.Cluster
