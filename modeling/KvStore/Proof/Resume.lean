import KvStore.Proof.Handshake
import KvStore.Proof.Intake

/-!
# A follower that is resumed has a prefix of the log

A token and an offset are all that a handshake compares. Behind them is this: of
the file that the path names, whoever knows its token has a prefix, and no more of
it than sessions have ever shipped. Appends keep that; a compaction makes every
token an old one; a recovery keeps it if it leaves what was shipped.
-/

namespace KvStore.Repl.Cluster

open Lib Wal Protocol

variable {lcfg fcfg : StoreConfig} {n m w : Nat} {dev : Nat}

/-! ## Tokens and what comes with them -/

/-- The token is none, or that of a log. -/
def TokenOfLog (dev : Nat) (d : Disk) (token : Bytes) : Prop :=
  token = [] ∨ ∃ file ∈ d.files, token = file.token dev

/-- With the token of the log comes a part of it that has been shipped. -/
def ShippedPart (dev : Nat) (d : Disk) (token bytes : Bytes) : Prop :=
  token = d.token dev → bytes <+: d.log.bytes ∧ bytes.length ≤ d.log.shipped

theorem ShippedPart.shorten {d : Disk} {token bytes bytes' : Bytes}
    (h : ShippedPart dev d token bytes)
    (hpre : bytes' <+: bytes) : ShippedPart dev d token bytes' := by
  intro htoken
  obtain ⟨h1, h2⟩ := h htoken
  exact ⟨hpre.trans h1, Nat.le_trans hpre.length_le h2⟩

theorem shippedPart_nil (d : Disk) (token : Bytes) : ShippedPart dev d token [] :=
  fun _ => ⟨List.nil_prefix, Nat.zero_le _⟩

theorem TokenOfLog.plain {d : Disk} {token : Bytes} (h : TokenOfLog dev d token) : Plain token := by
  rcases h with rfl | ⟨file, _, rfl⟩
  · decide
  · exact plain_replicationToken dev file.ino

theorem plain_token (d : Disk) : Plain (d.token dev) := plain_replicationToken dev d.log.ino

theorem token_ne_dash (d : Disk) : d.token dev ≠ ascii "-" := replicationToken_ne_dash dev d.log.ino

theorem log_mem_files (d : Disk) : d.log ∈ d.files :=
  List.mem_append_right _ (List.mem_singleton.mpr rfl)

/-- What was true of tokens and what came with them still is. -/
structure Carries (dev : Nat) (d d' : Disk) : Prop where
  known : ∀ token, TokenOfLog dev d token → TokenOfLog dev d' token
  backed : ∀ token bytes, TokenOfLog dev d token → ShippedPart dev d token bytes →
    ShippedPart dev d' token bytes

theorem TokenOfLog.of_inos {d d' : Disk} {token : Bytes}
    (hinos : d.files.map LogFile.ino ⊆ d'.files.map LogFile.ino) (h : TokenOfLog dev d token) :
    TokenOfLog dev d' token := by
  rcases h with rfl | ⟨file, hfile, rfl⟩
  · exact Or.inl rfl
  · obtain ⟨file', hfile', hino⟩ := List.mem_map.mp (hinos (List.mem_map_of_mem hfile))
    exact Or.inr ⟨file', hfile', by rw [LogFile.token, LogFile.token, hino]⟩

theorem Disk.Extends.carries {d d' : Disk} (h : d.Extends d') : Carries dev d d' := by
  refine ⟨fun token => TokenOfLog.of_inos (h.inos ▸ List.Subset.refl _), ?_⟩
  intro token bytes _ hb htoken
  obtain ⟨h1, h2⟩ := hb (htoken.trans h.token)
  exact ⟨h1.trans h.bytes, Nat.le_trans h2 h.shipped⟩

/-- Nobody has the token of a log that is new. -/
theorem TokenOfLog.ne_rename {d : Disk} {ino : Nat} (hfresh : ∀ file ∈ d.files, file.ino ≠ ino)
    {bytes token : Bytes} (h : TokenOfLog dev d token) :
    token ≠ (d.rename ino bytes).token dev := by
  intro htoken
  rcases h with rfl | ⟨file, hfile, rfl⟩
  · exact replicationToken_ne_nil dev ino htoken.symm
  · exact hfresh file hfile (replicationToken_inj htoken)

theorem carries_rename {d : Disk} {ino : Nat} (hfresh : ∀ file ∈ d.files, file.ino ≠ ino)
    (bytes : Bytes) : Carries dev d (d.rename ino bytes) := by
  have hfiles : (d.rename ino bytes).files = d.files ++ [(d.rename ino bytes).log] := rfl
  refine ⟨fun token => TokenOfLog.of_inos ?_, ?_⟩
  · rw [hfiles, List.map_append]
    exact List.subset_append_left _ _
  · -- nobody has the token of the new log, so nobody owes it anything
    intro token b hknown _ htoken
    exact absurd htoken (hknown.ne_rename hfresh)

/-- A recovery that leaves all that was shipped. -/
theorem carries_restart (hL : lcfg.logEnabled = true) {d : Disk} {torn : Bytes} {keep : Nat}
    (hkeep : d.log.shipped
      ≤ (Store.openOn lcfg ((d.log.bytes ++ torn).take keep)).log.file.length) :
    Carries dev d (d.restart (Store.openOn lcfg ((d.log.bytes ++ torn).take keep))) := by
  refine ⟨fun token => TokenOfLog.of_inos (by simp [Disk.files, Disk.restart]), ?_⟩
  intro token bytes _ hb htoken
  obtain ⟨h1, h2⟩ := hb htoken
  refine ⟨?_, h2⟩
  obtain ⟨_, _, _, _, hpre⟩ := recover_spec lcfg ((d.log.bytes ++ torn).take keep)
  rw [← openOn_file hL] at hpre
  exact List.prefix_of_prefix_length_le (h1.trans (List.prefix_append _ _))
    (hpre.trans (List.take_prefix _ _)) (Nat.le_trans h2 hkeep)

/-! ## What a follower hears -/

/--
What a follower has been told on a connection: the token, and all the bytes that
come under it, from the beginning of the log to the last byte in flight.
-/
inductive Hears (f : Follower fcfg) : Bool → Bytes → Bytes → Bytes → Prop
  | resumed {line stream : Bytes} (hidle : Idle f) (hline : newline ∉ line)
      (hparse : parseReply line = some .resume) :
      Hears f false (line ++ newline :: stream) f.savedToken (f.store.log.file ++ stream)
  | full {line stream token : Bytes} (hidle : Idle f) (hline : newline ∉ line)
      (hparse : parseReply line = some (.full token)) :
      Hears f false (line ++ newline :: stream) token stream
  | streaming {toFollower : Bytes} :
      Hears f true toFollower f.savedToken
        (f.store.log.file ++ frames f.pending ++ f.recvBuffer ++ toFollower)

/-- What the leader sends next, the follower hears next. -/
theorem Hears.more {f : Follower fcfg} {greeted : Bool} {toFollower token whole : Bytes}
    (h : Hears f greeted toFollower token whole) (bytes : Bytes) :
    Hears f greeted (toFollower ++ bytes) token (whole ++ bytes) := by
  cases h with
  | @resumed line stream hidle hline hparse =>
      have : Hears f false (line ++ newline :: (stream ++ bytes)) f.savedToken
          (f.store.log.file ++ (stream ++ bytes)) := .resumed hidle hline hparse
      simpa using this
  | @full line _ _ hidle hline hparse =>
      have : Hears f false (line ++ newline :: (whole ++ bytes)) token (whole ++ bytes) :=
        .full hidle hline hparse
      simpa using this
  | streaming =>
      have : Hears f true (toFollower ++ bytes) f.savedToken (f.store.log.file ++ frames f.pending
          ++ f.recvBuffer ++ (toFollower ++ bytes)) := .streaming
      simpa using this

/-- Before the reply is read, it is there to be read. -/
theorem Hears.line {f : Follower fcfg} {toFollower token whole : Bytes}
    (h : Hears f false toFollower token whole) :
    ∃ line stream, toFollower = line ++ newline :: stream ∧ newline ∉ line := by
  cases h with
  | @resumed line stream _ hline _ => exact ⟨line, stream, rfl, hline⟩
  | @full line _ _ _ hline _ => exact ⟨line, whole, rfl, hline⟩

/-- **Reading the reply** changes who the follower follows, and not what it hears. -/
theorem Hears.greet (hF : fcfg.logEnabled = true) {f f' : Follower fcfg}
    {toFollower token whole line rest : Bytes} (h : Hears f false toFollower token whole)
    (hoffset : f.store.log.offset = f.store.log.file.length)
    (hread : readLine [] toFollower = .line line rest)
    (hreply : f.onReply line true true = (f', .ok ())) :
    Hears f' true rest token whole ∧ f'.savedToken = token
      ∧ f'.store.log.offset = f'.store.log.file.length ∧ f'.store.log.file <+: whole := by
  cases h with
  | @resumed line' stream hidle hline hparse =>
      obtain ⟨rfl, rfl⟩ := readLine_unique hline hread
      obtain ⟨i1, i2, i3⟩ := hidle
      rw [Follower.onReply, hparse] at hreply
      obtain rfl := (Prod.mk.inj hreply).1
      refine ⟨?_, rfl, hoffset, List.prefix_append _ _⟩
      have hwhole : f.store.log.file ++ rest
          = f.store.log.file ++ frames f.pending ++ f.recvBuffer ++ rest := by
        rw [i1, i2]
        simp
      rw [hwhole]
      exact .streaming
  | @full line' stream token hidle hline hparse =>
      obtain ⟨rfl, rfl⟩ := readLine_unique hline hread
      obtain ⟨i1, i2, i3⟩ := hidle
      rw [Follower.onReply, hparse] at hreply
      dsimp only at hreply
      rw [resetForFullResync_ok hF] at hreply
      obtain rfl := (Prod.mk.inj hreply).1
      refine ⟨?_, rfl, rfl, List.nil_prefix⟩
      -- from here on the log is empty, and the stream is the whole of it
      have hwhole : rest = [] ++ frames f.pending ++ f.recvBuffer ++ rest := by
        rw [i1, i2]
        rfl
      conv => arg 5; rw [hwhole]
      exact .streaming

/-- **Reading the stream** takes what is heard from the link into the follower. -/
theorem Hears.read (hF : fcfg.logEnabled = true) {f f' : Follower fcfg}
    {chunk rest token whole : Bytes} {r : Except Drop (Option Nat)}
    (h : Hears f true (chunk ++ rest) token whole)
    (hoffset : f.store.log.offset = f.store.log.file.length)
    (hreceive : f.receive chunk {} = (f', r)) :
    f'.savedToken = token ∧ f'.store.log.offset = f'.store.log.file.length
      ∧ f'.store.log.file <+: whole ∧ ∀ o, r = .ok o → Hears f' true rest token whole := by
  cases h with
  | streaming =>
      obtain ⟨hsaved, hoff, _, hpre, hall, _⟩ := Follower.receive_log hF f hoffset hreceive
      refine ⟨hsaved, hoff, hpre.trans ⟨rest, by simp⟩, ?_⟩
      intro o ho
      have hwhole : f.store.log.file ++ frames f.pending ++ f.recvBuffer ++ (chunk ++ rest)
          = f'.store.log.file ++ frames f'.pending ++ f'.recvBuffer ++ rest := by
        rw [hall o ho]
        simp
      rw [hwhole, ← hsaved]
      exact .streaming

/-- A reply that is refused leaves the follower as it was. -/
theorem onReply_error (hF : fcfg.logEnabled = true) {f f' : Follower fcfg} {line : Bytes} {e : Drop}
    (h : f.onReply line true true = (f', .error e)) : f' = f := by
  rw [Follower.onReply] at h
  split at h
  · exact (Prod.mk.inj h).1.symm
  · exact absurd (Prod.mk.inj h).2 (by simp)
  · rw [resetForFullResync_ok hF] at h
    exact absurd (Prod.mk.inj h).2 (by simp)

/-! ## The two ends of a connection -/

/-- Under which token a connection is sending, and up to where it has. -/
def Stage.sends : Stage → Option (Bytes × Nat)
  | .replied leaderToken session => some (leaderToken, session.sentOffset)
  | .opened v => some (v.token, v.session.sentOffset)
  | .serving v => some (v.token, v.session.sentOffset)
  | _ => none

/-- From which file. -/
def Stage.source (d : Disk) : Stage → Option LogFile
  | .replied _ _ => some d.log
  | .opened v => d.files[v.file]?
  | .serving v => d.files[v.file]?
  | _ => none

/-- The leader has not read the request, or not answered it. -/
def Stage.asking : Stage → Bool
  | .queued => true
  | .identified _ _ _ => true
  | _ => false

theorem asking_of_sends {stage : Stage} {x : Bytes × Nat} (h : stage.sends = some x) :
    stage.asking = false := by
  cases stage with
  | queued => exact absurd h (by simp [Stage.sends])
  | identified _ _ _ => exact absurd h (by simp [Stage.sends])
  | replied _ _ => rfl
  | opened _ => rfl
  | serving _ => rfl
  | closed => rfl

/-- **A connection sends from a log, under its token.** -/
theorem Stage.Named.source {d : Disk} {stage : Stage} (h : stage.Named dev d) {token : Bytes}
    {sent : Nat} (hsends : stage.sends = some (token, sent)) :
    ∃ file ∈ d.files, stage.source d = some file ∧ token = file.token dev := by
  have hread : ∀ v : Served, v.Reads dev d →
      ∃ file ∈ d.files, d.files[v.file]? = some file ∧ v.token = file.token dev := by
    rintro v ⟨file, hfile, htoken, _⟩
    exact ⟨file, List.mem_of_getElem? hfile, hfile, htoken⟩
  cases stage with
  | queued => exact absurd hsends (by simp [Stage.sends])
  | identified _ _ _ => exact absurd hsends (by simp [Stage.sends])
  | closed => exact absurd hsends (by simp [Stage.sends])
  | replied leaderToken session =>
      obtain ⟨rfl, _⟩ := Prod.mk.inj (Option.some.inj hsends)
      exact ⟨d.log, log_mem_files d, rfl, h⟩
  | opened v =>
      obtain ⟨rfl, _⟩ := Prod.mk.inj (Option.some.inj hsends)
      exact hread v h
  | serving v =>
      obtain ⟨rfl, _⟩ := Prod.mk.inj (Option.some.inj hsends)
      exact hread v h

theorem tokenOfLog_of_sends {d : Disk} {stage : Stage} (h : stage.Named dev d) {token : Bytes}
    {sent : Nat}
    (hsends : stage.sends = some (token, sent)) : TokenOfLog dev d token := by
  obtain ⟨file, hmem, _, htoken⟩ := h.source hsends
  exact Or.inr ⟨file, hmem, htoken⟩

/-- Who asks has a part of a log that was shipped, and its request is read as it was asked. -/
structure AskedForShipped (dev : Nat) (d : Disk) (c : Socket n) : Prop where
  known : c.stage.asking = true → TokenOfLog dev d c.asked.1
  backed : c.stage.asking = true → ShippedPart dev d c.asked.1 c.asked.2
  request : c.stage = .queued → c.toLeader = syncRequest c.asked.1 c.asked.2.length
  read : ∀ leaderToken token requested, c.stage = .identified leaderToken token requested →
    token = sentToken c.asked.1 c.asked.2.length ∧ requested = c.asked.2.length
  shipped : ∀ sent, c.stage.sends = some (d.token dev, sent) → sent ≤ d.log.shipped

/-- What a follower has, and is still going to hear, is what the leader has sent it. -/
inductive EndsAgree (dev : Nat) (d : Disk) (f : Follower fcfg) (c : Socket n) : Prop
  | asking (hstage : c.stage.asking = true) (hidle : Idle f) (hnew : c.greeted = false)
      (hin : c.toFollower = []) (hasked : c.asked = (f.savedToken, f.store.log.file))
  | sending {token whole : Bytes} {sent : Nat} {file : LogFile}
      (hsends : c.stage.sends = some (token, sent)) (hsource : c.stage.source d = some file)
      (hears : Hears f c.greeted c.toFollower token whole) (hpre : whole <+: file.bytes)
      (hlen : whole.length = sent)
  /-- The leader is gone without an answer, or with a complaint. -/
  | deaf (hstage : c.stage = .closed) (hidle : Idle f) (hnew : c.greeted = false)
      (hin : ∀ line rest, readLine [] c.toFollower = .line line rest → parseReply line = none)
  | closed {token whole : Bytes} (hstage : c.stage = .closed)
      (hears : Hears f c.greeted c.toFollower token whole) (hknown : TokenOfLog dev d token)
      (hbacked : ShippedPart dev d token whole)

/-- A follower, and its end of a connection. -/
structure PeerOk (dev : Nat) (d : Disk) (sockets : Fin m → Option (Socket n)) (i : Fin n)
    (p : Peer fcfg m) : Prop where
  known : TokenOfLog dev d p.follower.savedToken
  offset : p.follower.store.log.offset = p.follower.store.log.file.length
  backed : ShippedPart dev d p.follower.savedToken p.follower.store.log.file
  idle : p.link = none → Idle p.follower
  linked : ∀ k, p.link = some k →
    ∃ c, sockets k = some c ∧ c.peer = i ∧ EndsAgree dev d p.follower c

/-- Everything that holds between two steps. -/
structure PrefixInv (dev : Nat) (s : State lcfg fcfg n m w) : Prop where
  tokens : TokensHold dev s
  held : ∀ k c, s.sockets k = some c → AskedForShipped dev s.disk c
  peers : ∀ i, PeerOk dev s.disk s.sockets i (s.peers i)

section Ends

variable {d d' : Disk} {f : Follower fcfg} {c c' : Socket n}

/-- What a connection sends under the token of the log is the log. -/
theorem shippedPart_sending (hdistinct : (d.files.map LogFile.ino).Nodup)
    (hnamed : c.stage.Named dev d)
    (hheld : AskedForShipped dev d c) {token whole : Bytes} {sent : Nat} {file : LogFile}
    (hsends : c.stage.sends = some (token, sent)) (hsource : c.stage.source d = some file)
    (hpre : whole <+: file.bytes) (hlen : whole.length = sent) :
    TokenOfLog dev d token ∧ ShippedPart dev d token whole := by
  obtain ⟨file', hmem, hsource', rfl⟩ := hnamed.source hsends
  obtain rfl := Option.some.inj (hsource.symm.trans hsource')
  refine ⟨Or.inr ⟨file, hmem, rfl⟩, ?_⟩
  intro htoken
  have hfile : file = d.log :=
    List.inj_on_of_nodup_map hdistinct hmem (log_mem_files d) (replicationToken_inj htoken)
  rw [htoken] at hsends
  exact ⟨hfile ▸ hpre, hlen ▸ hheld.shipped _ hsends⟩

/-- The leader's end is gone. What was sent before is still heard. -/
theorem EndsAgree.close (h : EndsAgree dev d f c) (hdistinct : (d.files.map LogFile.ino).Nodup)
    (hnamed : c.stage.Named dev d) (hheld : AskedForShipped dev d c) :
    EndsAgree dev d f { c with stage := .closed } := by
  cases h with
  | asking hstage hidle hnew hin hasked =>
      refine .deaf rfl hidle hnew ?_
      intro line rest hread
      rw [hin] at hread
      exact absurd hread (by simp [readLine])
  | sending hsends hsource hears hpre hlen =>
      obtain ⟨hknown, hbacked⟩ :=
        shippedPart_sending hdistinct hnamed hheld hsends hsource hpre hlen
      exact .closed rfl hears hknown hbacked
  | deaf hstage hidle hnew hin => exact .deaf rfl hidle hnew hin
  | closed hstage hears hknown hbacked => exact .closed rfl hears hknown hbacked

theorem EndsAgree.carry (h : EndsAgree dev d f c) (hcarries : Carries dev d d')
    (hsources : ∀ file, c.stage.source d = some file →
      ∃ file', c.stage.source d' = some file' ∧ file.bytes <+: file'.bytes) :
    EndsAgree dev d' f c := by
  cases h with
  | asking hstage hidle hnew hin hasked => exact .asking hstage hidle hnew hin hasked
  | sending hsends hsource hears hpre hlen =>
      obtain ⟨file', hsource', hbytes⟩ := hsources _ hsource
      exact .sending hsends hsource' hears (hpre.trans hbytes) hlen
  | deaf hstage hidle hnew hin => exact .deaf hstage hidle hnew hin
  | closed hstage hears hknown hbacked =>
      exact .closed hstage hears (hcarries.known _ hknown) (hcarries.backed _ _ hknown hbacked)

/-- A connection goes on sending from the file it has, or from what has become of the log. -/
theorem source_grows (hd : d.Grows d') (hlog : d.Extends d' ∨ c.between = false) {file : LogFile}
    (h : c.stage.source d = some file) :
    ∃ file', c.stage.source d' = some file' ∧ file.bytes <+: file'.bytes := by
  unfold Socket.between at hlog
  cases hstage : c.stage with
  | queued => rw [hstage] at h; exact absurd h (by simp [Stage.source])
  | identified _ _ _ => rw [hstage] at h; exact absurd h (by simp [Stage.source])
  | closed => rw [hstage] at h; exact absurd h (by simp [Stage.source])
  | opened v =>
      rw [hstage] at h
      obtain ⟨file', hfile', _, hbytes⟩ := hd _ _ h
      exact ⟨file', hfile', hbytes⟩
  | serving v =>
      rw [hstage] at h
      obtain ⟨file', hfile', _, hbytes⟩ := hd _ _ h
      exact ⟨file', hfile', hbytes⟩
  | replied leaderToken session =>
      rw [hstage] at h hlog
      rcases hlog with hlog | hlog
      · obtain rfl := Option.some.inj h
        exact ⟨d'.log, rfl, hlog.bytes⟩
      · exact absurd hlog (by simp)

theorem EndsAgree.extend (h : EndsAgree dev d f c) (hd : d.Extends d') : EndsAgree dev d' f c :=
  h.carry hd.carries fun _ => source_grows hd.grows (Or.inl hd)

theorem AskedForShipped.extend (h : AskedForShipped dev d c) (hd : d.Extends d') :
    AskedForShipped dev d' c := by
  refine ⟨fun ha => hd.carries.known _ (h.known ha),
    fun ha => hd.carries.backed _ _ (h.known ha) (h.backed ha), h.request, h.read, ?_⟩
  intro sent hsends
  rw [hd.token] at hsends
  exact Nat.le_trans (h.shipped _ hsends) hd.shipped

theorem EndsAgree.of_sends (h : EndsAgree dev d f c) {token : Bytes} {sent : Nat}
    (hsends : c.stage.sends = some (token, sent)) :
    ∃ whole file, c.stage.source d = some file ∧ Hears f c.greeted c.toFollower token whole
      ∧ whole <+: file.bytes ∧ whole.length = sent := by
  cases h with
  | asking hstage _ _ _ _ =>
      exact absurd (hstage.symm.trans (asking_of_sends hsends)) (by simp)
  | sending hsends' hsource hears hpre hlen =>
      obtain ⟨rfl, rfl⟩ := Prod.mk.inj (Option.some.inj (hsends.symm.trans hsends'))
      exact ⟨_, _, hsource, hears, hpre, hlen⟩
  | deaf hstage _ _ _ => rw [hstage] at hsends; exact absurd hsends (by simp [Stage.sends])
  | closed hstage _ _ _ => rw [hstage] at hsends; exact absurd hsends (by simp [Stage.sends])

theorem EndsAgree.of_asking (h : EndsAgree dev d f c) (hasking : c.stage.asking = true) :
    Idle f ∧ c.greeted = false ∧ c.toFollower = []
      ∧ c.asked = (f.savedToken, f.store.log.file) := by
  cases h with
  | asking _ hidle hnew hin hasked => exact ⟨hidle, hnew, hin, hasked⟩
  | sending hsends _ _ _ _ =>
      exact absurd (hasking.symm.trans (asking_of_sends hsends)) (by simp)
  | deaf hstage _ _ _ => rw [hstage] at hasking; exact absurd hasking (by simp [Stage.asking])
  | closed hstage _ _ _ => rw [hstage] at hasking; exact absurd hasking (by simp [Stage.asking])

/-- Nothing is sent, and what has been sent comes from the same file. -/
theorem EndsAgree.moved (h : EndsAgree dev d f c) {token : Bytes} {sent : Nat}
    (hsends' : c'.stage.sends = some (token, sent)) (hsends : c.stage.sends = some (token, sent))
    (hsource : c'.stage.source d = c.stage.source d) (hin : c'.toFollower = c.toFollower)
    (hgreeted : c'.greeted = c.greeted) : EndsAgree dev d f c' := by
  obtain ⟨whole, file, hfile, hears, hpre, hlen⟩ := h.of_sends hsends
  refine .sending hsends' (hsource.trans hfile) ?_ hpre hlen
  rw [hin, hgreeted]
  exact hears

theorem EndsAgree.answered (h : EndsAgree dev d f c) (hgreeted : c.greeted = true) :
    c.stage.asking = false := by
  cases hasking : c.stage.asking with
  | false => rfl
  | true =>
      obtain ⟨_, hnew, _⟩ := h.of_asking hasking
      exact absurd (hgreeted.symm.trans hnew) (by simp)

/-- A follower that has read the reply has the token in it. -/
theorem EndsAgree.saved (h : EndsAgree dev d f c) (hgreeted : c.greeted = true) {token : Bytes}
    {sent : Nat} (hsends : c.stage.sends = some (token, sent)) : f.savedToken = token := by
  obtain ⟨whole, _, _, hears, _, _⟩ := h.of_sends hsends
  rw [hgreeted] at hears
  cases hears with
  | streaming => rfl

/-- A follower hears something, which it will go on hearing, or there is nothing to hear. -/
theorem EndsAgree.hears (h : EndsAgree dev d f c) (hdistinct : (d.files.map LogFile.ino).Nodup)
    (hnamed : c.stage.Named dev d) (hheld : AskedForShipped dev d c) :
    (∃ token whole, Hears f c.greeted c.toFollower token whole ∧ TokenOfLog dev d token
        ∧ ShippedPart dev d token whole ∧ c.stage.asking = false
        ∧ ∀ (f' : Follower fcfg) (c' : Socket n), c'.stage = c.stage →
          Hears f' c'.greeted c'.toFollower token whole → EndsAgree dev d f' c')
      ∨ (Idle f ∧ c.greeted = false
        ∧ ∀ line rest, readLine [] c.toFollower = .line line rest → parseReply line = none) := by
  cases h with
  | asking _ hidle hnew hin _ =>
      refine Or.inr ⟨hidle, hnew, ?_⟩
      intro line rest hread
      rw [hin] at hread
      exact absurd hread (by simp [readLine])
  | @sending token whole sent file hsends hsource hears hpre hlen =>
      obtain ⟨hknown, hbacked⟩ :=
        shippedPart_sending hdistinct hnamed hheld hsends hsource hpre hlen
      refine Or.inl ⟨token, whole, hears, hknown, hbacked, asking_of_sends hsends, ?_⟩
      intro f' c' hstage hears'
      exact .sending (hstage ▸ hsends) (hstage ▸ hsource) hears' hpre hlen
  | deaf _ hidle hnew hin => exact Or.inr ⟨hidle, hnew, hin⟩
  | @closed token whole hstage hears hknown hbacked =>
      refine Or.inl ⟨token, whole, hears, hknown, hbacked, by rw [hstage]; rfl, ?_⟩
      intro f' c' hstage' hears'
      exact .closed (hstage'.trans hstage) hears' hknown hbacked

/-- The request is read as it was meant. -/
theorem AskedForShipped.identified (h : AskedForShipped dev d c) (hstage : c.stage = .queued)
    {line rest token : Bytes} {requested : Nat} (hline : readLine [] c.toLeader = .line line rest)
    (hparse : parseSync line = .ok (token, requested)) :
    token = sentToken c.asked.1 c.asked.2.length ∧ requested = c.asked.2.length ∧ rest = [] := by
  have hasking : c.stage.asking = true := by rw [hstage]; rfl
  obtain ⟨line', hrequest, hnl, hparse'⟩ :=
    syncRequest_line (h.known hasking).plain c.asked.2.length
  rw [h.request hstage, hrequest] at hline
  obtain ⟨rfl, rfl⟩ := readLine_unique hnl hline
  rw [hparse'] at hparse
  split at hparse
  · obtain ⟨rfl, rfl⟩ := Prod.mk.inj (Except.ok.inj hparse)
    exact ⟨rfl, rfl, rfl⟩
  · exact absurd hparse (by simp)

/-- On a connection that is not asking, it is what is sent that counts. -/
theorem askedForShipped_of_sends (hasking : c.stage.asking = false)
    (hsends : ∀ sent, c.stage.sends = some (d.token dev, sent) → sent ≤ d.log.shipped) :
    AskedForShipped dev d c := by
  refine ⟨fun ha => absurd (hasking.symm.trans ha) (by simp),
    fun ha => absurd (hasking.symm.trans ha) (by simp), fun hq => ?_, fun _ _ _ hi => ?_, hsends⟩
  · rw [hq] at hasking; exact absurd hasking (by simp [Stage.asking])
  · rw [hi] at hasking; exact absurd hasking (by simp [Stage.asking])

theorem askedForShipped_closed (hstage : c.stage = .closed) : AskedForShipped dev d c := by
  refine askedForShipped_of_sends (by rw [hstage]; rfl) ?_
  intro sent hsends
  rw [hstage] at hsends
  exact absurd hsends (by simp [Stage.sends])

/-- Only the log itself has its token. -/
theorem file_of_token (hdistinct : (d.files.map LogFile.ino).Nodup) {j : Nat} {file : LogFile}
    (hfile : d.files[j]? = some file) (htoken : file.token dev = d.token dev) :
    j = d.old.length := by
  have hino : file.ino = d.log.ino := replicationToken_inj htoken
  have hlog : d.files[d.old.length]? = some d.log := by rw [Disk.getElem?_files, if_pos rfl]
  have hlt : j < (d.files.map LogFile.ino).length := by
    rw [List.length_map]
    exact (List.getElem?_eq_some_iff.mp hfile).1
  refine (List.getElem?_inj hlt hdistinct).mp ?_
  rw [List.getElem?_map, List.getElem?_map, hfile, hlog, Option.map_some, Option.map_some, hino]

/-- **The leader's own steps keep what is owed.** -/
theorem askedForShipped_serves (hdistinct : (d.files.map LogFile.ino).Nodup)
    (h : AskedForShipped dev d c) (hnamed : c.stage.Named dev d) (hs : Serves dev d c c') :
    AskedForShipped dev (c'.noteShipped d) c' := by
  have hsame : c'.stage.asking = false → c'.stage.sends = c.stage.sends →
      AskedForShipped dev (c'.noteShipped d) c' := by
    intro hasking hsends
    exact (askedForShipped_of_sends hasking (hsends ▸ h.shipped)).extend
      (extends_socket_noteShipped c' d)
  cases hs with
  | identified hstage hline hparse =>
      have hasking : c.stage.asking = true := by rw [hstage]; rfl
      obtain ⟨h1, h2, _⟩ := h.identified hstage hline hparse
      refine ⟨fun _ => h.known hasking, fun _ => h.backed hasking, fun hq => absurd hq (by simp),
        ?_, fun _ hsends => absurd hsends (by simp [Stage.sends])⟩
      rintro _ _ _ ⟨⟩
      exact ⟨h1, h2⟩
  | complained hstage hline hparse => exact askedForShipped_closed rfl
  | overlong hstage => exact askedForShipped_closed rfl
  | refused hstage => exact askedForShipped_closed rfl
  | @replied leaderToken token requested hstage =>
      have hasking : c.stage.asking = true := by rw [hstage]; rfl
      obtain ⟨rfl, rfl⟩ := h.read _ _ _ hstage
      rw [hstage] at hnamed
      obtain rfl : leaderToken = d.token dev := hnamed
      refine askedForShipped_of_sends rfl ?_
      rintro _ ⟨rfl⟩
      show (answer _ _ (d.token dev) d.offset).2 ≤ d.log.shipped
      rw [answer]
      split
      · rename_i hcan
        exact (h.backed hasking (savedToken_of_canResume (token_ne_dash d) hcan)).2
      · exact Nat.zero_le _
  | opened hstage => exact hsame rfl (by rw [hstage]; rfl)
  | registered hstage => exact hsame rfl (by rw [hstage]; rfl)
  | moved hstage hloop => exact hsame rfl (by rw [hstage]; rfl)
  | @shipped v file target count session bytes hstage hloop hfile hchunk =>
      refine askedForShipped_of_sends rfl ?_
      show ∀ sent, some (v.token, session.sentOffset)
          = some ((d.noteShipped v.file session.sentOffset).token dev, sent) →
        sent ≤ (d.noteShipped v.file session.sentOffset).log.shipped
      rw [(d.extends_noteShipped _ _).token]
      intro sent heq
      obtain ⟨htoken, rfl⟩ := Prod.mk.inj (Option.some.inj heq)
      rw [hstage] at hnamed
      obtain ⟨file', hfile', hfiletoken, _⟩ := hnamed
      obtain rfl := Option.some.inj (hfile.symm.trans hfile')
      -- what is shipped under the log's token is shipped from the log, and noted there
      have hlast := file_of_token hdistinct hfile (hfiletoken.symm.trans htoken)
      rw [Disk.noteShipped, if_pos hlast]
      exact Nat.le_max_right _ _
  | drained count hstage =>
      refine hsame rfl ?_
      rw [hstage]
      show some (_, _) = some (_, _)
      rw [Session.drainAcks_sentOffset]
  | finished hstage => exact hsame rfl (by rw [hstage]; rfl)

/-- **The leader's own steps are heard as they are meant.** -/
theorem endsAgree_serves (hdistinct : (d.files.map LogFile.ino).Nodup)
    (hnamed : c.stage.Named dev d)
    (hheld : AskedForShipped dev d c) (h : EndsAgree dev d f c) (hs : Serves dev d c c') :
    EndsAgree dev d f c' := by
  cases hs with
  | identified hstage hline hparse =>
      obtain ⟨h1, h2, h3, h4⟩ := h.of_asking (by rw [hstage]; rfl)
      exact .asking rfl h1 h2 h3 h4
  | complained hstage hline hparse =>
      obtain ⟨h1, h2, _, _⟩ := h.of_asking (by rw [hstage]; rfl)
      exact .deaf rfl h1 h2 fun line rest hread =>
        parseSync_complaint hparse (readLine_line hread List.not_mem_nil).1
  | overlong hstage => exact h.close hdistinct hnamed hheld
  | refused hstage => exact h.close hdistinct hnamed hheld
  | @replied leaderToken token requested hstage =>
      have hasking : c.stage.asking = true := by rw [hstage]; rfl
      obtain ⟨hidle, hnew, _, hasked⟩ := h.of_asking hasking
      obtain ⟨rfl, rfl⟩ := hheld.read _ _ _ hstage
      have hbacked := hheld.backed hasking
      rw [hstage] at hnamed
      obtain rfl : leaderToken = d.token dev := hnamed
      obtain ⟨line, hline, hnl, hparse⟩ := answer_line (plain_token d)
        (sentToken c.asked.1 c.asked.2.length) c.asked.2.length d.offset
      cases hcan : canResume (sentToken c.asked.1 c.asked.2.length) c.asked.2.length (d.token dev)
          d.offset with
      | true =>
          -- resumed: what it has is what it asked for to be gone on from
          have hsaved := savedToken_of_canResume (token_ne_dash d) hcan
          have hparse : parseReply line = some .resume := by
            rw [hparse, hcan]
            rfl
          refine .sending rfl rfl (show Hears f c.greeted _ (d.token dev) c.asked.2 from ?_)
            (hbacked hsaved).1 ?_
          · rw [hline, hnew, ← hsaved, hasked]
            have : Hears f false (line ++ newline :: []) f.savedToken (f.store.log.file ++ []) :=
              .resumed hidle hnl hparse
            simpa using this
          · show _ = (answer _ _ _ _).2
            rw [answer, if_pos hcan]
      | false =>
          -- told to start over: it will hear the log from its first byte
          have hparse : parseReply line = some (.full (d.token dev)) := by
            rw [hparse, hcan]
            rfl
          refine .sending rfl rfl (show Hears f c.greeted _ (d.token dev) [] from ?_)
            List.nil_prefix ?_
          · rw [hline, hnew]
            exact .full hidle hnl hparse
          · show _ = (answer _ _ _ _).2
            rw [answer, hcan]
            rfl
  | opened hstage =>
      refine h.moved rfl (by rw [hstage]; rfl) ?_ rfl rfl
      rw [hstage]
      show d.files[d.old.length]? = some d.log
      rw [Disk.getElem?_files, if_pos rfl]
  | registered hstage => exact h.moved rfl (by rw [hstage]; rfl) (by rw [hstage]; rfl) rfl rfl
  | moved hstage hloop => exact h.moved rfl (by rw [hstage]; rfl) (by rw [hstage]; rfl) rfl rfl
  | @shipped v file' target count session bytes hstage hloop hfile hchunk =>
      obtain ⟨whole, file, hsource, hears, hpre, hlen⟩ := h.of_sends (by rw [hstage]; rfl)
      rw [hstage] at hsource
      obtain rfl := Option.some.inj (hfile.symm.trans hsource)
      obtain ⟨hsent, hbytes, _, _⟩ := Session.shipChunk_bytes hchunk
      refine .sending rfl hsource (hears.more bytes) ?_ ?_
      · -- the chunk goes on where all that was heard ends
        obtain ⟨rest, hrest⟩ := hpre
        rw [← hlen, ← hrest, List.drop_left] at hbytes
        rw [← hrest]
        exact (List.prefix_append_right_inj _).mpr hbytes
      · rw [List.length_append, hlen, hsent]
  | drained count hstage =>
      refine h.moved rfl ?_ (by rw [hstage]; rfl) rfl rfl
      rw [hstage, Session.drainAcks_sentOffset]
      rfl
  | finished hstage => exact h.moved rfl (by rw [hstage]; rfl) (by rw [hstage]; rfl) rfl rfl

end Ends

/-! ## Steps of the leader -/

section Steps

variable {s s' : State lcfg fcfg n m w}

/-- What the leader does leaves the followers as they are, and is heard by them. -/
theorem PrefixInv.leads (h : PrefixInv dev s) (htokens : TokensHold dev s')
    (hcarries : Carries dev s.disk s'.disk) (hpeers : s'.peers = s.peers)
    (hheld : ∀ k c', s'.sockets k = some c' → AskedForShipped dev s'.disk c')
    (hsockets : ∀ k c, s.sockets k = some c → ∃ c', s'.sockets k = some c' ∧ c'.peer = c.peer
      ∧ ∀ f : Follower fcfg, EndsAgree dev s.disk f c → EndsAgree dev s'.disk f c') :
    PrefixInv dev s' := by
  refine ⟨htokens, hheld, ?_⟩
  intro i
  rw [hpeers]
  obtain ⟨hknown, hoffset, hbacked, hidle, hlinked⟩ := h.peers i
  refine ⟨hcarries.known _ hknown, hoffset, hcarries.backed _ _ hknown hbacked, hidle, ?_⟩
  intro k hlink
  obtain ⟨c, hc, hpeer, hl⟩ := hlinked k hlink
  obtain ⟨c', hc', hpeer', hl'⟩ := hsockets k c hc
  exact ⟨c', hc', hpeer'.trans hpeer, hl' _ hl⟩

/-- The log may grow under everyone. -/
theorem PrefixInv.of_extends (h : PrefixInv dev s) (htokens : TokensHold dev s')
    (hdisk : s.disk.Extends s'.disk) (hpeers : s'.peers = s.peers)
    (hsockets : s'.sockets = s.sockets) : PrefixInv dev s' := by
  refine h.leads htokens hdisk.carries hpeers ?_ ?_
  · rw [hsockets]
    exact fun k c hc => (h.held k c hc).extend hdisk
  · rw [hsockets]
    exact fun k c hc => ⟨c, hc, rfl, fun f hl => hl.extend hdisk⟩

/-- One connection changes. -/
theorem PrefixInv.of_update (h : PrefixInv dev s) (htokens : TokensHold dev s') {k : Fin m}
    {c c' : Socket n} (hc : s.sockets k = some c) (hdisk : s.disk.Extends s'.disk)
    (hpeers : s'.peers = s.peers) (hsockets : s'.sockets = Function.update s.sockets k (some c'))
    (hpeer : c'.peer = c.peer) (hheld : AskedForShipped dev s'.disk c')
    (hlinked : ∀ f : Follower fcfg, EndsAgree dev s.disk f c → EndsAgree dev s'.disk f c') :
    PrefixInv dev s' := by
  refine h.leads htokens hdisk.carries hpeers ?_ ?_
  · rw [hsockets]
    refine forall_update ?_ fun k c _ hc => (h.held k c hc).extend hdisk
    rintro _ ⟨rfl⟩
    exact hheld
  · rw [hsockets]
    intro k' c₀ hc₀
    by_cases hk : k' = k
    · subst hk
      obtain rfl := Option.some.inj (hc.symm.trans hc₀)
      exact ⟨c', Function.update_self .., hpeer, hlinked⟩
    · exact ⟨c₀, by rw [Function.update_of_ne hk, hc₀], rfl, fun f hl => hl.extend hdisk⟩

theorem prefixInv_rename (h : PrefixInv dev s) {ino : Nat}
    (hfresh : ∀ file ∈ s.disk.files, file.ino ≠ ino)
    (hbetween : ∀ k, (s.sockets k).any Socket.between = false) {bytes : Bytes}
    {compaction : Compaction m} :
    PrefixInv dev { s with compaction := compaction, disk := s.disk.rename ino bytes } := by
  have hcarries : Carries dev s.disk (s.disk.rename ino bytes) := carries_rename hfresh bytes
  have hquiet : ∀ k c, s.sockets k = some c → c.between = false := by
    intro k c hc
    have := hbetween k
    rw [hc] at this
    exact this
  refine h.leads (tokensHold_rename h.tokens hfresh hbetween) hcarries rfl ?_ ?_
  · intro k c hc
    have hheld := h.held k c hc
    refine ⟨fun ha => hcarries.known _ (hheld.known ha),
      fun ha => hcarries.backed _ _ (hheld.known ha) (hheld.backed ha), hheld.request,
      hheld.read, ?_⟩
    -- nobody is sending under a token that has just come to be
    intro sent hsends
    exfalso
    exact (tokenOfLog_of_sends (h.tokens.named k c hc) hsends).ne_rename hfresh rfl
  · intro k c hc
    refine ⟨c, hc, rfl, fun f hl => hl.carry hcarries fun file => ?_⟩
    exact source_grows (s.disk.grows_rename ino bytes) (Or.inr (hquiet k c hc))

theorem askedForShipped_stop {d : Disk} {c : Socket n} (h : AskedForShipped dev d c) :
    AskedForShipped dev d c.stop := by
  unfold Socket.stop
  split
  · rename_i hstage
    exact askedForShipped_of_sends rfl fun sent hsends =>
      h.shipped sent (by rw [hstage]; exact hsends)
  · exact h

theorem endsAgree_stop {d : Disk} {c : Socket n} {f : Follower fcfg} (h : EndsAgree dev d f c) :
    EndsAgree dev d f c.stop := by
  unfold Socket.stop
  split
  · rename_i hstage
    exact h.moved rfl (by rw [hstage]; rfl) (by rw [hstage]; rfl) rfl rfl
  · exact h

theorem prefixInv_compacted {a : Compact} (h : PrefixInv dev s) (htokens : TokensHold dev s')
    (hfresh : Fresh s (.compact a)) (hquiet : NoRenameInHandshake s (.compact a))
    (hs : Compacted s a s') : PrefixInv dev s' := by
  cases hs with
  | renamed hidle hwriters => exact prefixInv_rename h hfresh hquiet
  | reopened hstage =>
      exact h.of_extends htokens ⟨rfl, rfl, List.prefix_rfl, Nat.le_refl _⟩ rfl rfl
  | listed hstage => exact h.of_extends htokens (.refl _) rfl rfl
  | @stopped k ks hstage =>
      rcases Option.eq_none_or_eq_some (s.sockets k) with hk | ⟨c, hk⟩
      · refine h.of_extends htokens (.refl _) rfl ?_
        show Function.update s.sockets k ((s.sockets k).map Socket.stop) = s.sockets
        rw [hk, Option.map_none, ← hk, Function.update_eq_self]
      · refine h.of_update htokens hk (.refl _) rfl ?_ ?_ (askedForShipped_stop (h.held k c hk))
          fun f hl => endsAgree_stop hl
        · show Function.update s.sockets k ((s.sockets k).map Socket.stop) = _
          rw [hk, Option.map_some]
        · unfold Socket.stop
          split <;> rfl
  | released hstage => exact h.of_extends htokens (.refl _) rfl rfl

theorem reap_eq (c : Socket n) : c.reap = c ∨ c.reap = { c with stage := .closed } := by
  unfold Socket.reap
  split
  · split
    · exact Or.inr rfl
    · exact Or.inl rfl
  · exact Or.inl rfl

theorem prefixInv_reap (h : PrefixInv dev s)
    (htokens : TokensHold dev { s with sockets := fun k => (s.sockets k).map Socket.reap }) :
    PrefixInv dev { s with sockets := fun k => (s.sockets k).map Socket.reap } := by
  refine h.leads htokens (Disk.Extends.refl _).carries rfl ?_ ?_
  · intro k c' hc'
    obtain ⟨c, hc, rfl⟩ := Option.map_eq_some_iff.mp hc'
    rcases reap_eq c with heq | heq
    · rw [heq]; exact h.held k c hc
    · rw [heq]; exact askedForShipped_closed rfl
  · intro k c hc
    refine ⟨c.reap, by show (s.sockets k).map _ = _; rw [hc, Option.map_some], ?_, ?_⟩
    · rcases reap_eq c with heq | heq
      · rw [heq]
      · rw [heq]
    · intro f hl
      rcases reap_eq c with heq | heq
      · rw [heq]; exact hl
      · rw [heq]
        exact hl.close h.tokens.distinct (h.tokens.named k c hc) (h.held k c hc)

theorem prefixInv_crash (hL : lcfg.logEnabled = true) (h : PrefixInv dev s)
    {torn : Option (Fin w × Nat)} {keep : Nat}
    (hkeep : s.disk.log.shipped ≤ (crashed s torn keep).log.file.length)
    (htokens : TokensHold dev s') (hdisk : s'.disk = s.disk.restart (crashed s torn keep))
    (hsockets : s'.sockets = fun k => (s.sockets k).map fun c => { c with stage := .closed })
    (hpeers : s'.peers = s.peers) : PrefixInv dev s' := by
  have hcarries : Carries dev s.disk s'.disk := hdisk ▸ carries_restart hL hkeep
  refine h.leads htokens hcarries hpeers ?_ ?_
  · rw [hsockets]
    intro k c' hc'
    obtain ⟨c, hc, rfl⟩ := Option.map_eq_some_iff.mp hc'
    exact askedForShipped_closed rfl
  · -- what was in flight when the leader died may still arrive
    intro k c hc
    refine ⟨{ c with stage := .closed },
      by rw [hsockets]; show (s.sockets k).map _ = _; rw [hc]; rfl,
      rfl, ?_⟩
    intro f hl
    refine (hl.close h.tokens.distinct (h.tokens.named k c hc) (h.held k c hc)).carry hcarries ?_
    exact fun file hsource => absurd hsource (by simp [Stage.source])

/-! ## Steps of a follower -/

/-- A follower changes that has no connection, now. -/
theorem PrefixInv.leaves (h : PrefixInv dev s) {i : Fin n} {p : Peer fcfg m}
    (hp : PeerOk dev s.disk s.sockets i p) : PrefixInv dev (s.setPeer i p) := by
  refine ⟨⟨h.tokens.distinct, h.tokens.named⟩, h.held, ?_⟩
  intro i'
  show PeerOk dev s.disk s.sockets i' (Function.update s.peers i p i')
  by_cases hi : i' = i
  · subst hi
    rw [Function.update_self]
    exact hp
  · rw [Function.update_of_ne hi]
    exact h.peers i'

/-- A follower changes, and the connection that it is the only one to use. -/
theorem PrefixInv.follows (h : PrefixInv dev s) {i : Fin n} {k : Fin m} {p : Peer fcfg m}
    {c' : Socket n} (htokens : TokensHold dev ((s.setPeer i p).setSocket k c'))
    (hmine : ∀ c, s.sockets k = some c → c.peer = i) (hheld : AskedForShipped dev s.disk c')
    (hp : PeerOk dev s.disk (Function.update s.sockets k (some c')) i p) :
    PrefixInv dev ((s.setPeer i p).setSocket k c') := by
  refine ⟨htokens, ?_, ?_⟩
  · refine forall_update ?_ fun k c _ hc => h.held k c hc
    rintro _ ⟨rfl⟩
    exact hheld
  · intro i'
    show PeerOk dev s.disk (Function.update s.sockets k (some c')) i'
      (Function.update s.peers i p i')
    by_cases hi : i' = i
    · subst hi
      rw [Function.update_self]
      exact hp
    · rw [Function.update_of_ne hi]
      obtain ⟨hknown, hoffset, hbacked, hidle, hlinked⟩ := h.peers i'
      refine ⟨hknown, hoffset, hbacked, hidle, ?_⟩
      intro k' hlink
      obtain ⟨c, hc, hpeer, hl⟩ := hlinked k' hlink
      -- the connection belongs to one follower only
      have hk : k' ≠ k := by
        rintro rfl
        exact hi (hpeer.symm.trans (hmine c hc))
      exact ⟨c, by rw [Function.update_of_ne hk, hc], hpeer, hl⟩

/-- A follower goes on, on the connection it has. -/
theorem PrefixInv.continues (h : PrefixInv dev s) {i : Fin n} {k : Fin m} {c c' : Socket n}
    {f : Follower fcfg}
    (htokens : TokensHold dev
      ((s.setPeer i { follower := f, link := some k }).setSocket k c'))
    (hc : s.sockets k = some c) (hpeer : c.peer = i) (hpeer' : c'.peer = i)
    (hstage : c'.stage = c.stage) (hasking : c.stage.asking = false)
    (hknown : TokenOfLog dev s.disk f.savedToken)
    (hbacked : ShippedPart dev s.disk f.savedToken f.store.log.file)
    (hoffset : f.store.log.offset = f.store.log.file.length) (hlinked : EndsAgree dev s.disk f c') :
    PrefixInv dev ((s.setPeer i { follower := f, link := some k }).setSocket k c') := by
  refine h.follows htokens ?_ ?_ ⟨hknown, hoffset, hbacked, fun hnone => absurd hnone (by simp), ?_⟩
  · intro c₀ hc₀
    obtain rfl := Option.some.inj (hc.symm.trans hc₀)
    exact hpeer
  · refine askedForShipped_of_sends (by rw [hstage]; exact hasking) ?_
    rw [hstage]
    exact (h.held k c hc).shipped
  · rintro _ ⟨rfl⟩
    exact ⟨c', Function.update_self .., hpeer', hlinked⟩

/-- A follower reads on, and hears the same. -/
theorem PrefixInv.receives (hF : fcfg.logEnabled = true) (h : PrefixInv dev s) {i : Fin n}
    {k : Fin m} {c : Socket n} {chunk rest : Bytes} {f : Follower fcfg}
    {r : Except Drop (Option Nat)} (hlink : (s.peers i).link = some k) (hc : s.sockets k = some c)
    (hgreeted : c.greeted = true) (hchunk : c.toFollower = chunk ++ rest)
    (hreceive : (s.peers i).follower.receive chunk {} = (f, r)) :
    c.peer = i ∧ c.stage.asking = false ∧ TokenOfLog dev s.disk f.savedToken
      ∧ ShippedPart dev s.disk f.savedToken f.store.log.file
      ∧ f.store.log.offset = f.store.log.file.length
      ∧ ∀ o, r = .ok o → ∀ c' : Socket n, c'.stage = c.stage → c'.greeted = true →
        c'.toFollower = rest → EndsAgree dev s.disk f c' := by
  obtain ⟨c₀, hc₀, hpeer, hl⟩ := (h.peers i).linked k hlink
  obtain rfl := Option.some.inj (hc.symm.trans hc₀)
  rcases hl.hears h.tokens.distinct (h.tokens.named k c hc) (h.held k c hc) with
    ⟨token, whole, hears, hknown, hbacked, hasking, hlinks⟩ | ⟨_, hnew, _⟩
  · rw [hgreeted, hchunk] at hears
    obtain ⟨rfl, hoffset, hpre, hears'⟩ := hears.read hF (h.peers i).offset hreceive
    refine ⟨hpeer, hasking, hknown, hbacked.shorten hpre, hoffset, ?_⟩
    intro o ho c' hstage hgreeted' hrest
    refine hlinks f c' hstage ?_
    rw [hgreeted', hrest]
    exact hears' o ho
  · rw [hgreeted] at hnew; exact absurd hnew (by simp)

/-- What a follower would write next is still a part of what it hears. -/
theorem PrefixInv.batch (h : PrefixInv dev s) (i : Fin n) (count : Nat) :
    ShippedPart dev s.disk (s.peers i).follower.savedToken ((s.peers i).follower.store.log.file
      ++ frames ((s.peers i).follower.batch (incoming s (s.peers i).link count))) := by
  obtain ⟨hknown, hoffset, hbacked, hidle, hlinked⟩ := h.peers i
  have hnothing : Idle (s.peers i).follower → incoming s (s.peers i).link count = [] →
      ShippedPart dev s.disk (s.peers i).follower.savedToken ((s.peers i).follower.store.log.file
        ++ frames ((s.peers i).follower.batch (incoming s (s.peers i).link count))) := by
    intro hi hin
    rw [hin, hi.batch]
    simpa [frames] using hbacked
  cases hlink : (s.peers i).link with
  | none => exact hlink ▸ hnothing (hidle hlink) (by rw [hlink]; rfl)
  | some k =>
      obtain ⟨c, hc, _, hl⟩ := hlinked k hlink
      have hin : incoming s (some k) count
          = if c.greeted then c.toFollower.take (min count kReadChunkBytes) else [] := by
        rw [incoming, Option.bind_some, hc]
      rw [hlink] at hnothing
      rcases hl.hears h.tokens.distinct (h.tokens.named k c hc) (h.held k c hc) with
        ⟨token, whole, hears, _, hwhole, _⟩ | ⟨hi, hnew, _⟩
      · generalize hg : c.greeted = greeted at hears hin
        generalize c.toFollower = toFollower at hears hin
        cases hears with
        -- before the reply is read there is nothing to write
        | resumed hi _ _ => exact hnothing hi (by rw [hin]; rfl)
        | full hi _ _ => exact hnothing hi (by rw [hin]; rfl)
        | streaming =>
            refine hwhole.shorten ?_
            rw [hin, if_pos rfl]
            have hbatch := (s.peers i).follower.frames_batch
              (toFollower.take (min count kReadChunkBytes))
            have hchunk := List.take_prefix (min count kReadChunkBytes) toFollower
            rw [List.append_assoc, List.append_assoc]
            refine (List.prefix_append_right_inj _).mpr (hbatch.trans ?_)
            rw [List.append_assoc]
            exact (List.prefix_append_right_inj _).mpr ((List.prefix_append_right_inj _).mpr hchunk)
      · exact hnothing hi (by rw [hin, hnew]; rfl)

/-- **The steps of a follower keep it to what it hears.** -/
theorem prefixInv_followed (hF : fcfg.logEnabled = true) (h : PrefixInv dev s) {i : Fin n}
    {a : Follow m} (hs : Followed s i a s') : PrefixInv dev s' := by
  have htokens := tokensHold_followed h.tokens hs
  have hi := h.peers i
  cases hs with
  | @connected k hlink hfree =>
      have hoffset : (s.peers i).follower.store.logOffset
          = (s.peers i).follower.store.log.file.length := by
        rw [Store.logOffset, if_pos hF, hi.offset]
      refine h.follows htokens (fun c hc => ?_) ?_ ⟨hi.known, hi.offset, hi.backed,
        fun hnone => absurd hnone (by simp), ?_⟩
      · rw [hfree] at hc; exact absurd hc (by simp)
      · refine ⟨fun _ => hi.known, fun _ => hi.backed, fun _ => ?_, fun _ _ _ hid => ?_,
          fun _ hsends => ?_⟩
        · show syncRequest _ _ = _
          rw [hoffset]
        · exact absurd hid (by simp)
        · exact absurd hsends (by simp [Stage.sends])
      · rintro _ ⟨rfl⟩
        exact ⟨_, Function.update_self .., rfl, .asking rfl (hi.idle hlink) rfl rfl rfl⟩
  | @greeted k c line rest f hlink hc hnew hline hreply =>
      obtain ⟨c₀, hc₀, hpeer, hl⟩ := hi.linked k hlink
      obtain rfl := Option.some.inj (hc.symm.trans hc₀)
      rcases hl.hears h.tokens.distinct (h.tokens.named k c hc) (h.held k c hc) with
        ⟨token, whole, hears, hknown, hbacked, hasking, hlinks⟩ | ⟨_, _, hdeaf⟩
      · rw [hnew] at hears
        obtain ⟨hears', hsaved, hoff, hpre⟩ := hears.greet hF hi.offset hline hreply
        subst hsaved
        exact h.continues htokens hc hpeer hpeer rfl hasking hknown (hbacked.shorten hpre) hoff
          (hlinks f _ rfl hears')
      · rw [Follower.onReply, hdeaf line rest hline] at hreply
        exact absurd (Prod.mk.inj hreply).2 (by simp)
  | refused hlink hc hnew hline hreply =>
      obtain rfl := onReply_error hF hreply
      exact h.leaves ⟨hi.known, hi.offset, hi.backed, fun _ => idle_disconnect _,
        fun k hk => absurd hk (by simp)⟩
  | waited hlink hc hgreeted hchunk hreceive =>
      obtain ⟨hpeer, hasking, hknown, hbacked, hoffset, hlinks⟩ :=
        h.receives hF hlink hc hgreeted hchunk hreceive
      exact h.continues htokens hc hpeer hpeer rfl hasking hknown hbacked hoffset
        (hlinks _ rfl _ rfl hgreeted rfl)
  | advanced hlink hc hgreeted hchunk hreceive =>
      obtain ⟨hpeer, hasking, hknown, hbacked, hoffset, hlinks⟩ :=
        h.receives hF hlink hc hgreeted hchunk hreceive
      exact h.continues htokens hc hpeer hpeer rfl hasking hknown hbacked hoffset
        (hlinks _ rfl _ rfl hgreeted rfl)
  | dropped hlink hc hgreeted hchunk hreceive =>
      obtain ⟨_, _, hknown, hbacked, hoffset, _⟩ :=
        h.receives hF hlink hc hgreeted hchunk hreceive
      exact h.leaves ⟨hknown, hoffset, hbacked, fun _ => idle_disconnect _,
        fun k hk => absurd hk (by simp)⟩
  | left hlink =>
      exact h.leaves ⟨hi.known, hi.offset, hi.backed, fun _ => idle_disconnect _,
        fun k hk => absurd hk (by simp)⟩
  | killed count part keep =>
      have hfile : killedFile s i count part keep <+: (s.peers i).follower.store.log.file
          ++ frames ((s.peers i).follower.batch (incoming s (s.peers i).link count)) :=
        (List.take_prefix _ _).trans ((List.prefix_append_right_inj _).mpr (List.take_prefix _ _))
      have hpre : (Store.openOn fcfg (killedFile s i count part keep)).log.file
          <+: killedFile s i count part keep := by
        obtain ⟨_, _, _, _, hpre⟩ := recover_spec fcfg (killedFile s i count part keep)
        rw [openOn_file hF]
        exact hpre
      -- it keeps a part of what it had and of what it was writing
      exact h.leaves ⟨hi.known, openOn_offset hF _, (h.batch i count).shorten (hpre.trans hfile),
        fun _ => ⟨rfl, rfl, rfl⟩, fun k hk => absurd hk (by simp)⟩

end Steps

/-! ## Whole runs -/

/-- A recovery of the leader leaves all of the log that has been shipped. -/
def KeepsShipped (s : State lcfg fcfg n m w) : Act n m w → Prop
  | .crash torn keep => s.disk.log.shipped ≤ (crashed s torn keep).log.file.length
  | _ => True

instance (s : State lcfg fcfg n m w) : ∀ a, Decidable (KeepsShipped s a)
  | .crash torn keep =>
      inferInstanceAs (Decidable (s.disk.log.shipped ≤ (crashed s torn keep).log.file.length))
  | .write .. | .compact _ | .sync | .reap | .serve .. | .follow .. => isTrue trivial

/-- Nothing happens to the log that a token does not tell. -/
def Telling (s : State lcfg fcfg n m w) (a : Act n m w) : Prop :=
  Fresh s a ∧ NoRenameInHandshake s a ∧ KeepsShipped s a

instance (s : State lcfg fcfg n m w) (a : Act n m w) : Decidable (Telling s a) :=
  inferInstanceAs (Decidable (_ ∧ _))

theorem prefixInv_step (hL : lcfg.logEnabled = true) (hF : fcfg.logEnabled = true)
    {mode : ReplMode} {s s' : State lcfg fcfg n m w} {a : Act n m w} (h : PrefixInv dev s)
    (hok : Telling s a) (hs : step dev mode s a = some s') : PrefixInv dev s' := by
  obtain ⟨hfresh, hquiet, hkeep⟩ := hok
  have htokens := tokensHold_step h.tokens hfresh hquiet hs
  cases a with
  | write t a =>
      obtain ⟨hdisk, hsockets, hpeers, _⟩ := (stepWrite_effect hs).frame
      exact h.of_extends htokens hdisk hpeers hsockets
  | compact a => exact prefixInv_compacted h htokens hfresh hquiet (stepCompact_effect hs)
  | sync =>
      rw [step] at hs
      split at hs
      · exact absurd hs (by simp)
      · cases hs
        exact h.of_extends htokens ⟨rfl, rfl, List.prefix_rfl, Nat.le_refl _⟩ rfl rfl
  | reap =>
      rw [step] at hs
      split at hs
      · exact absurd hs (by simp)
      · cases hs
        exact prefixInv_reap h htokens
  | serve k a =>
      obtain ⟨c, c', hc, hserves, rfl⟩ := stepServe_effect hs
      have hnamed := h.tokens.named k c hc
      have hheld := h.held k c hc
      refine h.of_update htokens hc (extends_socket_noteShipped c' s.disk) rfl rfl ?_
        (askedForShipped_serves h.tokens.distinct hheld hnamed hserves) ?_
      · -- no step of the leader changes whose connection it is
        cases hserves <;> rfl
      · intro f hl
        exact (endsAgree_serves h.tokens.distinct hnamed hheld hl hserves).extend
          (extends_socket_noteShipped c' s.disk)
  | follow i a => exact prefixInv_followed hF h (stepFollow_effect hs)
  | crash torn keep =>
      rw [step] at hs
      split at hs
      · cases hs
        exact prefixInv_crash hL h hkeep htokens rfl rfl rfl
      · exact absurd hs (by simp)

theorem prefixInv_reachable (hL : lcfg.logEnabled = true) (hF : fcfg.logEnabled = true)
    {mode : ReplMode} {ino : Nat} {file : Bytes} {s : State lcfg fcfg n m w}
    (h : (system lcfg fcfg n m w dev mode ino file).ReachableBy Telling s) : PrefixInv dev s := by
  refine h.invariant (I := PrefixInv dev) ?_ fun _ _ _ hi hok hs => prefixInv_step hL hF hi hok hs
  rintro s rfl
  refine ⟨⟨List.nodup_singleton _, fun k c hc => absurd hc (by simp)⟩,
    fun k c hc => absurd hc (by simp), fun i => ?_⟩
  exact ⟨Or.inl rfl, rfl, shippedPart_nil _ _, fun _ => ⟨rfl, rfl, rfl⟩,
    fun k hk => absurd hk (by simp)⟩

/--
Where the reply to a follower, which the accept thread is about to make, will be
`+RESUME`: the offset in it, and the log that the follower had when it asked.
-/
def Socket.resumed (d : Disk) (c : Socket n) : Option (Nat × Bytes) :=
  match c.stage with
  | .identified leaderToken token requested =>
      if canResume token requested leaderToken d.offset then some (requested, c.asked.2) else none
  | _ => none

/-- What the session at `k` has resumed from, if it has. -/
def State.resumed (s : State lcfg fcfg n m w) (k : Fin m) : Option (Nat × Bytes) :=
  (s.sockets k).bind (Socket.resumed s.disk)

theorem resumed_some {s : State lcfg fcfg n m w} {k : Fin m} {requested : Nat} {asked : Bytes}
    (h : s.resumed k = some (requested, asked)) :
    ∃ c leaderToken token, s.sockets k = some c ∧ c.stage = .identified leaderToken token requested
      ∧ canResume token requested leaderToken s.disk.offset = true ∧ c.asked.2 = asked := by
  obtain ⟨c, hc, hr⟩ := Option.bind_eq_some_iff.mp h
  unfold Socket.resumed at hr
  split at hr
  · rename_i leaderToken token requested' hstage
    split at hr
    · rename_i hcan
      obtain ⟨rfl, rfl⟩ := Prod.mk.inj (Option.some.inj hr)
      exact ⟨c, leaderToken, token, hc, hstage, hcan, rfl⟩
    · exact absurd hr (by simp)
  · exact absurd hr (by simp)

/--
**A follower is resumed at the end of a prefix.** Whatever has become of the log,
of the leader and of the follower, so long as tokens tell logs apart, none is read
before a log and used behind it, and no recovery takes back what was shipped.
-/
theorem resumed_agrees (hL : lcfg.logEnabled = true) (hF : fcfg.logEnabled = true)
    {mode : ReplMode} {ino : Nat} {file : Bytes} {s : State lcfg fcfg n m w}
    (h : (system lcfg fcfg n m w dev mode ino file).ReachableBy Telling s) {k : Fin m}
    {requested : Nat} {asked : Bytes} (hresumed : s.resumed k = some (requested, asked)) :
    s.disk.log.bytes.take requested = asked
      ∧ ∀ i, (s.peers i).link = some k → (s.peers i).follower.store.log.file = asked := by
  have hinv := prefixInv_reachable hL hF h
  obtain ⟨c, leaderToken, token, hc, hstage, hcan, rfl⟩ := resumed_some hresumed
  have hasking : c.stage.asking = true := by rw [hstage]; rfl
  have hnamed := hinv.tokens.named k c hc
  rw [hstage] at hnamed
  obtain rfl : leaderToken = s.disk.token dev := hnamed
  have hheld := hinv.held k c hc
  obtain ⟨rfl, rfl⟩ := hheld.read _ _ _ hstage
  have hsaved := savedToken_of_canResume (token_ne_dash s.disk) hcan
  refine ⟨(List.prefix_iff_eq_take.mp (hheld.backed hasking hsaved).1).symm, ?_⟩
  intro i hlink
  obtain ⟨c₀, hc₀, _, hl⟩ := (hinv.peers i).linked k hlink
  obtain rfl := Option.some.inj (hc.symm.trans hc₀)
  obtain ⟨_, _, _, hasked⟩ := hl.of_asking hasking
  rw [hasked]

/-- A follower takes in all there is, and is off again. -/
def followSteps (i : Fin n) (k : Fin m) : List (Act n m w) :=
  [.follow i (.connect k), .serve k .identify, .serve k .reply, .serve k .openLog,
      .serve k .register, .follow i .greet]
    ++ shipSteps k ++ [.follow i (.read 1000), .follow i .hangUp, .serve k .finish, .reap]

/-- The leader is killed in the middle of an append, and cuts it off. -/
theorem resumed_agrees_torn :
    ∃ s asked, (system standalone standalone 1 2 1 1 .async 5 []).ReachableBy Telling s
      ∧ s.resumed 1 = some (19, asked) ∧ asked.length = 19 ∧ s.disk.log.bytes.length = 38
      ∧ s.disk.log.bytes.take 19 = asked := by
  obtain ⟨s, ⟨requested, asked⟩, hreach, hresumed, rfl, hlen, hlog⟩ :=
    System.exists_reachableBy_some
    (g := fun s => s.resumed 1)
    (p := fun s r => r.1 = 19 ∧ r.2.length = 19 ∧ s.disk.log.bytes.length = 38)
    (show (system standalone standalone 1 2 1 1 .async 5 []).ReachableBy Telling _ from .init rfl)
    (putSteps 0 (.set [97] [49]) ++ followSteps 0 0
      ++ [.write 0 (.enter (.set [98] [50])), .crash (some (0, 5)) 24]
      ++ putSteps 0 (.set [97] [50]) ++ [.follow 0 (.connect 1), .serve 1 .identify])
    (by decide +kernel) (by decide +kernel)
  exact ⟨s, asked, hreach, hresumed, hlen, hlog, (resumed_agrees rfl rfl hreach hresumed).1⟩

/-- Two compactions, the second of which is given the inode number of the first log again. -/
theorem not_resumed_agrees_reused :
    ∃ s r, (system standalone standalone 1 2 1 1 .async 5 []).ReachableBy
        (fun s a => NoRenameInHandshake s a ∧ KeepsShipped s a) s
      ∧ s.resumed 1 = some r ∧ (s.peers 0).link = some 1
      ∧ (s.peers 0).follower.store.log.file = r.2 ∧ s.disk.log.bytes.take r.1 ≠ r.2 :=
  System.exists_reachableBy_some (.init rfl)
    (putSteps 0 (.set [97] [49]) ++ followSteps 0 0 ++ putSteps 0 (.set [97] [50])
      ++ compactSteps 6 0 ++ compactSteps 5 0 ++ [.follow 0 (.connect 1), .serve 1 .identify])
    (by decide +kernel) (by decide +kernel)

end KvStore.Repl.Cluster
