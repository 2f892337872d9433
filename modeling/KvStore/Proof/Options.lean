import KvStore.Main.Options

/-!
# What the command line can say

Whatever the arguments are, `main` either gives up or ends with a configuration that the
rest of the program can be built from: a pool has a thread, a replica has a log, no number is
cut when it is stored. And every such configuration can be said: there are arguments for it.
-/

namespace KvStore.Main

open Lib Wal Repl Pool
open Cluster (ReplMode)

/-! ## Numbers -/

theorem strtoul_lt (text : Bytes) : (strtoul text).1 < 2 ^ 64 := by
  unfold strtoul
  dsimp only
  split
  · exact Nat.two_pow_pos 64
  · split
    · rename_i hlt
      split
      · exact Nat.mod_lt _ (Nat.two_pow_pos 64)
      · exact hlt
    · exact Nat.sub_lt (Nat.two_pow_pos 64) Nat.one_pos

theorem parseUnsigned_some {text : Bytes} {maxValue n : Nat}
    (h : parseUnsigned text maxValue = some n) : 1 ≤ n ∧ n ≤ maxValue := by
  unfold parseUnsigned at h
  dsimp only at h
  split at h
  · exact absurd h (by simp)
  · split at h
    · exact absurd h (by simp)
    · split at h
      · exact absurd h (by simp)
      · rename_i hrange
        obtain rfl := Option.some.inj h
        omega

-- A minus sign is no reason to refuse a number.
example : parseUnsigned (ascii " -18446744073709551536") 65535 = some 80 := by decide +kernel

theorem parseMemory_some {text : Bytes} {n : Nat} (h : parseMemory text = some n) :
    n < 2 ^ 64 := by
  unfold parseMemory at h
  dsimp only at h
  split at h
  · exact absurd h (by simp)
  · obtain rfl := Option.some.inj h
    exact strtoul_lt text

theorem takeSign_toDecimal (n : Nat) : takeSign (toDecimal n) = (false, toDecimal n) := by
  obtain ⟨d, ds, hn, hd⟩ := toDecimal_cons n
  have hspace : (toDecimal n).dropWhile isSpace = toDecimal n := by
    rw [hn, List.dropWhile_cons_of_neg (by simp [isSpace_digit hd])]
  have hsign : ∀ sign : UInt8, isDigit sign = false → (toDecimal n).head? ≠ some sign := by
    intro sign hsign heq
    rw [hn] at heq
    obtain rfl := Option.some.inj heq
    exact absurd (hd.symm.trans hsign) (by simp)
  unfold takeSign
  dsimp only
  rw [hspace, if_neg (hsign 45 (by decide)), if_neg (hsign 43 (by decide))]

/-- A numeral is read as a whole. -/
theorem strtoul_toDecimal {n : Nat} (h : n < 2 ^ 64) : strtoul (toDecimal n) = (n, []) := by
  have hrest : (toDecimal n).dropWhile isDigit = [] :=
    List.dropWhile_eq_nil_iff.mpr (toDecimal_digits n)
  unfold strtoul
  dsimp only
  rw [takeSign_toDecimal]
  dsimp only
  rw [takeWhile_toDecimal, if_neg (toDecimal_ne_nil n), ofDecimal_toDecimal, if_pos h,
    if_neg (by simp), hrest]

theorem parseUnsigned_toDecimal {n maxValue : Nat} (hpos : 1 ≤ n) (hle : n ≤ maxValue)
    (hmax : maxValue < 2 ^ 64) : parseUnsigned (toDecimal n) maxValue = some n := by
  have hread := @strtoul_toDecimal n (by omega)
  unfold parseUnsigned
  rw [if_neg (toDecimal_ne_nil n), hread]
  dsimp only
  rw [if_neg (by simp), if_neg (by omega)]

theorem parseMemory_toDecimal {n : Nat} (h : n < 2 ^ 64) :
    parseMemory (toDecimal n) = some n := by
  unfold parseMemory
  rw [strtoul_toDecimal h]
  dsimp only
  rw [if_neg]
  rintro (hnil | hnil)
  · exact toDecimal_ne_nil n hnil.symm
  · exact hnil rfl

/-- The host may have colons in it; the port has none. -/
theorem splitPeer_append (host : Bytes) {port : Bytes} (h : colon ∉ port) :
    splitPeer (host ++ colon :: port) = some (host, port) := by
  have hrev : (host ++ colon :: port).reverse = port.reverse ++ colon :: host.reverse := by simp
  have hport : ∀ b ∈ port.reverse, decide (b ≠ colon) = true := by
    intro b hb
    refine decide_eq_true ?_
    rintro rfl
    exact h (List.mem_reverse.mp hb)
  have htake : (port.reverse ++ colon :: host.reverse).takeWhile (· ≠ colon) = port.reverse := by
    rw [List.takeWhile_append_of_pos hport, List.takeWhile_cons_of_neg (by simp), List.append_nil]
  have hdrop : (port.reverse ++ colon :: host.reverse).dropWhile (· ≠ colon)
      = colon :: host.reverse := by
    rw [List.dropWhile_append_of_pos hport, List.dropWhile_cons_of_neg (by simp)]
  unfold splitPeer
  rw [if_pos (by simp), hrev, htake, hdrop]
  simp

/-! ## Configurations -/

/-- What every number and the peer's host have to be, whichever options were given. -/
structure FieldsInRange (o : Options) : Prop where
  port : 1 ≤ o.port ∧ o.port ≤ 65535
  threads : 1 ≤ o.threads ∧ o.threads ≤ 1024
  shards : 1 ≤ o.shards ∧ o.shards ≤ 4096
  maxMemory : o.maxMemory < 2 ^ 64
  fsyncIntervalMs : 1 ≤ o.fsyncIntervalMs ∧ o.fsyncIntervalMs ≤ 60000
  listenPort : 1 ≤ o.replConfig.listenPort ∧ o.replConfig.listenPort ≤ 65535
  peerHost : o.replConfig.peerHost ≠ []
  peerPort : 1 ≤ o.replConfig.peerPort ∧ o.replConfig.peerPort ≤ 65535
  ackTimeoutMs : 1 ≤ o.replConfig.ackTimeoutMs ∧ o.replConfig.ackTimeoutMs ≤ 60000

/-- A configuration that the server can be built from. -/
structure WellFormed (epollAvailable : Bool) (o : Options) : Prop extends FieldsInRange o where
  /-- Replication ships the log. -/
  log : o.replConfig.role ≠ .standalone → o.logPath ≠ []
  ports : o.replConfig.role = .leader → o.replConfig.listenPort ≠ o.port
  poller : o.ioConfig.poller = .epoll → epollAvailable = true

theorem accept_ok {α : Type} {parsed : Option α} {message : String} {set : α → Options}
    {o' : Options} (h : accept parsed message set = .ok o') :
    ∃ x, parsed = some x ∧ o' = set x := by
  cases parsed with
  | none => exact absurd h (by simp [accept])
  | some x => exact ⟨x, rfl, (Except.ok.inj h).symm⟩

theorem port_cast {n : Nat} (h : 1 ≤ n ∧ n ≤ 65535) : 1 ≤ n % 2 ^ 16 ∧ n % 2 ^ 16 ≤ 65535 := by
  omega

theorem acceptPeer_ok {o o' : Options} {peer : Bytes} (h : acceptPeer o peer = .ok o') :
    ∃ host port rest, splitPeer peer = some (host, rest) ∧ host ≠ []
      ∧ (1 ≤ port ∧ port ≤ 65535)
      ∧ o' = { o with replConfig := { o.replConfig with peerHost := host, peerPort := port } } := by
  unfold acceptPeer at h
  split at h
  · exact absurd h (by simp)
  · rename_i host port hsplit
    split at h
    · exact absurd h (by simp)
    · rename_i hne
      obtain ⟨value, hvalue, rfl⟩ := accept_ok h
      exact ⟨host, value % 2 ^ 16, port, hsplit, fun hnil => hne (.inl hnil),
        port_cast (parseUnsigned_some hvalue), rfl⟩

theorem fieldsInRange_set {o o' : Options} (hrange : FieldsInRange o) {value : Bytes} {flag : Flag}
    (h : flag.set o value = .ok o') : FieldsInRange o' := by
  cases flag with
  | port =>
      obtain ⟨n, hn, rfl⟩ := accept_ok h
      exact { hrange with port := parseUnsigned_some hn }
  | threads =>
      obtain ⟨n, hn, rfl⟩ := accept_ok h
      exact { hrange with threads := parseUnsigned_some hn }
  | lockMode =>
      rw [Flag.set] at h
      split at h
      · cases h
        exact { hrange with }
      · exact absurd h (by simp)
  | shards =>
      obtain ⟨n, hn, rfl⟩ := accept_ok h
      exact { hrange with shards := parseUnsigned_some hn }
  | maxMemory =>
      obtain ⟨n, hn, rfl⟩ := accept_ok h
      exact { hrange with maxMemory := parseMemory_some hn }
  | log =>
      rw [Flag.set] at h
      split at h
      · exact absurd h (by simp)
      · cases h
        exact { hrange with }
  | fsync =>
      obtain ⟨_, _, rfl⟩ := accept_ok h
      exact { hrange with }
  | fsyncIntervalMs =>
      obtain ⟨n, hn, rfl⟩ := accept_ok h
      exact { hrange with fsyncIntervalMs := parseUnsigned_some hn }
  | schedule =>
      obtain ⟨_, _, rfl⟩ := accept_ok h
      exact { hrange with }
  | role =>
      obtain ⟨_, _, rfl⟩ := accept_ok h
      exact { hrange with }
  | replPort =>
      obtain ⟨n, hn, rfl⟩ := accept_ok h
      exact { hrange with listenPort := port_cast (parseUnsigned_some hn) }
  | peer =>
      obtain ⟨host, port, -, -, hhost, hport, rfl⟩ := acceptPeer_ok h
      exact { hrange with peerHost := hhost, peerPort := hport }
  | replMode =>
      obtain ⟨_, _, rfl⟩ := accept_ok h
      exact { hrange with }
  | io =>
      obtain ⟨_, _, rfl⟩ := accept_ok h
      exact { hrange with }
  | poller =>
      obtain ⟨_, _, rfl⟩ := accept_ok h
      exact { hrange with }
  | replAckTimeoutMs =>
      obtain ⟨n, hn, rfl⟩ := accept_ok h
      exact { hrange with ackTimeoutMs := parseUnsigned_some hn }

/-- The host is a part of the argument. -/
theorem cString_splitPeer {peer host port : Bytes} (h : CString peer)
    (hsplit : splitPeer peer = some (host, port)) : CString host := by
  unfold splitPeer at hsplit
  split at hsplit
  · cases hsplit
    intro hmem
    have hmem := (List.dropWhile_sublist _).subset (List.mem_of_mem_drop (List.mem_reverse.mp hmem))
    exact h (List.mem_reverse.mp hmem)
  · exact absurd hsplit (by simp)

theorem cStrings_set {o o' : Options} (ho : o.CStrings) {value : Bytes} (hvalue : CString value)
    {flag : Flag} (h : flag.set o value = .ok o') : o'.CStrings := by
  cases flag with
  | log =>
      rw [Flag.set] at h
      split at h
      · exact absurd h (by simp)
      · cases h
        exact ⟨hvalue, ho.2⟩
  | peer =>
      obtain ⟨host, port, rest, hsplit, -, -, rfl⟩ := acceptPeer_ok h
      exact ⟨ho.1, cString_splitPeer hvalue hsplit⟩
  | lockMode =>
      rw [Flag.set] at h
      split at h
      · cases h
        exact ho
      · exact absurd h (by simp)
  | _ =>
      obtain ⟨_, _, rfl⟩ := accept_ok h
      exact ho

theorem cStrings_parseArgs {o o' : Options} {args : List Bytes} (ho : o.CStrings)
    (hargs : ∀ arg ∈ args, CString arg) (h : parseArgs o args = .ok o') : o'.CStrings := by
  fun_induction parseArgs o args with
  | case1 o =>
      obtain rfl := Except.ok.inj h
      exact ho
  | case2 o =>
      obtain rfl := Except.ok.inj h
      exact ho
  | case3 => exact absurd h (by simp)
  | case4 o value rest ih => exact ih ho (fun arg harg => hargs arg (List.mem_cons_of_mem _ harg)) h
  | case5 => exact absurd h (by simp)
  | case6 => exact absurd h (by simp)
  | case7 o arg value rest hne flag hflag o₁ hset ih =>
      have hvalue := hargs value (List.mem_cons_of_mem _ (List.mem_cons_self ..))
      refine ih (cStrings_set ho hvalue hset) (fun arg harg => ?_) h
      exact hargs arg (List.mem_cons_of_mem _ (List.mem_cons_of_mem _ harg))

theorem cStrings_default : Options.CStrings {} := ⟨List.not_mem_nil, by decide +kernel⟩

theorem fieldsInRange_parseArgs {o o' : Options} {args : List Bytes} (hrange : FieldsInRange o)
    (h : parseArgs o args = .ok o') : FieldsInRange o' := by
  fun_induction parseArgs o args with
  | case1 o =>
      obtain rfl := Except.ok.inj h
      exact hrange
  | case2 o =>
      obtain rfl := Except.ok.inj h
      exact { hrange with }
  | case3 => exact absurd h (by simp)
  | case4 o value rest ih => exact ih { hrange with } h
  | case5 => exact absurd h (by simp)
  | case6 => exact absurd h (by simp)
  | case7 o arg value rest hne flag hflag o₁ hset ih => exact ih (fieldsInRange_set hrange hset) h

theorem fieldsInRange_default : FieldsInRange {} where
  port := ⟨by decide, by decide⟩
  threads := ⟨by decide, by decide⟩
  shards := ⟨by decide, by decide⟩
  maxMemory := Nat.two_pow_pos 64
  fsyncIntervalMs := ⟨by decide, by decide⟩
  listenPort := ⟨by decide, by decide⟩
  peerHost := by decide +kernel
  peerPort := ⟨by decide, by decide⟩
  ackTimeoutMs := ⟨by decide, by decide⟩

theorem cStrings_configure {epollAvailable : Bool} {args : List Bytes} {o : Options}
    (hargs : ∀ arg ∈ args, CString arg) (h : configure epollAvailable args = .ok o) :
    o.CStrings := by
  unfold configure at h
  split at h
  · exact absurd h (by simp)
  · rename_i o₁ hparse
    have ho := cStrings_parseArgs cStrings_default hargs hparse
    unfold check at h
    split at h
    · exact absurd h (by simp)
    · split at h
      · exact absurd h (by simp)
      · split at h
        · exact absurd h (by simp)
        · obtain rfl := Except.ok.inj h
          exact ho

theorem wellFormed_configure {epollAvailable : Bool} {args : List Bytes} {o : Options}
    (h : configure epollAvailable args = .ok o) : WellFormed epollAvailable o := by
  unfold configure at h
  split at h
  · exact absurd h (by simp)
  · rename_i o₁ hparse
    have hrange := fieldsInRange_parseArgs fieldsInRange_default hparse
    unfold check at h
    split at h
    · exact absurd h (by simp)
    · rename_i hlog
      split at h
      · exact absurd h (by simp)
      · rename_i hports
        split at h
        · exact absurd h (by simp)
        · rename_i hpoller
          obtain rfl := Except.ok.inj h
          refine { hrange with log := ?_, ports := ?_, poller := ?_ }
          · exact fun hrole hnil => hlog ⟨hrole, hnil⟩
          · intro hrole heq
            have hport := hrange.port
            exact hports ⟨hrole, by omega⟩
          · intro hepoll
            by_contra hnone
            exact hpoller ⟨hepoll, Bool.eq_false_iff.mpr hnone⟩

/-! ## Saying a configuration -/

/-- Arguments for a configuration, one option after another. -/
def spell (o : Options) : List Bytes :=
  [Flag.port.text, toDecimal o.port, Flag.threads.text, toDecimal o.threads,
    Flag.lockMode.text, ascii (lockModeName o.lockMode), Flag.shards.text, toDecimal o.shards,
    Flag.maxMemory.text, toDecimal o.maxMemory, Flag.fsync.text, ascii (fsyncModeName o.fsyncMode),
    Flag.fsyncIntervalMs.text, toDecimal o.fsyncIntervalMs,
    Flag.schedule.text, ascii (schedulingPolicyName o.schedulingPolicy),
    Flag.role.text, ascii (roleName o.replConfig.role),
    Flag.replPort.text, toDecimal o.replConfig.listenPort,
    Flag.peer.text, o.replConfig.peerHost ++ colon :: toDecimal o.replConfig.peerPort,
    Flag.replMode.text, ascii (replModeName o.replConfig.mode),
    Flag.io.text, ascii (ioModeName o.ioConfig.mode),
    Flag.poller.text, ascii (pollerKindName o.ioConfig.poller),
    Flag.replAckTimeoutMs.text, toDecimal o.replConfig.ackTimeoutMs]
  ++ ((if o.logPath = [] then [] else [Flag.log.text, o.logPath])
  ++ (if o.aging then [ascii "--aging"] else []))

/-- What the program calls something is a word for it, and can be given to a program. -/
def IsWordFor {α : Type} (parse : Bytes → Option α) (name : α → String) (x : α) : Prop :=
  parse (ascii (name x)) = some x ∧ CString (ascii (name x))

instance {α : Type} [DecidableEq α] (parse : Bytes → Option α) (name : α → String) (x : α) :
    Decidable (IsWordFor parse name x) := inferInstanceAs (Decidable (_ ∧ _))

theorem names_are_words :
    (∀ mode ∈ [LockMode.none, .globalMutex, .globalSharedMutex, .sharded],
        IsWordFor parseLockMode lockModeName mode)
      ∧ (∀ mode ∈ [FsyncMode.always, .interval, .never],
        IsWordFor parseFsyncMode fsyncModeName mode)
      ∧ (∀ policy ∈ [SchedulingPolicy.fcfs, .priority, .roundRobin],
        IsWordFor parseSchedulingPolicy schedulingPolicyName policy)
      ∧ (∀ role ∈ [Role.standalone, .leader, .follower], IsWordFor parseRole roleName role)
      ∧ (∀ mode ∈ [ReplMode.async, .sync], IsWordFor parseReplMode replModeName mode)
      ∧ (∀ mode ∈ [IoMode.threadPool, .eventLoop], IsWordFor parseIoMode ioModeName mode)
      ∧ ∀ kind ∈ [PollerKind.auto, .poll, .epoll],
        IsWordFor parsePollerKind pollerKindName kind := by
  decide +kernel

theorem lockModeName_word (mode : LockMode) : IsWordFor parseLockMode lockModeName mode :=
  names_are_words.1 mode (by cases mode <;> simp)

theorem fsyncModeName_word (mode : FsyncMode) : IsWordFor parseFsyncMode fsyncModeName mode :=
  names_are_words.2.1 mode (by cases mode <;> simp)

theorem schedulingPolicyName_word (policy : SchedulingPolicy) :
    IsWordFor parseSchedulingPolicy schedulingPolicyName policy :=
  names_are_words.2.2.1 policy (by cases policy <;> simp)

theorem roleName_word (role : Role) : IsWordFor parseRole roleName role :=
  names_are_words.2.2.2.1 role (by cases role <;> simp)

theorem replModeName_word (mode : ReplMode) : IsWordFor parseReplMode replModeName mode :=
  names_are_words.2.2.2.2.1 mode (by cases mode <;> simp)

theorem ioModeName_word (mode : IoMode) : IsWordFor parseIoMode ioModeName mode :=
  names_are_words.2.2.2.2.2.1 mode (by cases mode <;> simp)

theorem pollerKindName_word (kind : PollerKind) : IsWordFor parsePollerKind pollerKindName kind :=
  names_are_words.2.2.2.2.2.2 kind (by cases kind <;> simp)

theorem mem_all (flag : Flag) : flag ∈ Flag.all := by
  cases flag <;> simp [Flag.all]

theorem cString_text (flag : Flag) : CString flag.text := by
  have hall : ∀ flag ∈ Flag.all, CString flag.text := by decide +kernel
  exact hall flag (mem_all flag)

theorem cString_toDecimal (n : Nat) : CString (toDecimal n) := not_mem_toDecimal (by decide) n

theorem cString_peer {host : Bytes} (h : CString host) (port : Nat) :
    CString (host ++ colon :: toDecimal port) := by
  intro hmem
  rcases List.mem_append.mp hmem with hhost | hport
  · exact h hhost
  · rcases List.mem_cons.mp hport with hcolon | hport
    · exact absurd hcolon (by decide)
    · exact cString_toDecimal port hport

/-- The arguments can be given to a program. -/
theorem cString_spell {o : Options} (h : o.CStrings) : ∀ arg ∈ spell o, CString arg := by
  refine List.forall_mem_append.mpr ⟨?_, List.forall_mem_append.mpr ⟨?_, ?_⟩⟩
  · simp only [List.forall_mem_cons]
    exact ⟨cString_text _, cString_toDecimal _, cString_text _, cString_toDecimal _,
      cString_text _, (lockModeName_word _).2, cString_text _, cString_toDecimal _,
      cString_text _, cString_toDecimal _, cString_text _, (fsyncModeName_word _).2,
      cString_text _, cString_toDecimal _, cString_text _, (schedulingPolicyName_word _).2,
      cString_text _, (roleName_word _).2, cString_text _, cString_toDecimal _,
      cString_text _, cString_peer h.2 _, cString_text _, (replModeName_word _).2,
      cString_text _, (ioModeName_word _).2, cString_text _, (pollerKindName_word _).2,
      cString_text _, cString_toDecimal _, List.forall_mem_nil _⟩
  · split
    · exact List.forall_mem_nil _
    · exact List.forall_mem_cons.mpr ⟨cString_text _, List.forall_mem_singleton.mpr h.1⟩
  · split
    · exact List.forall_mem_singleton.mpr (by decide +kernel)
    · exact List.forall_mem_nil _

/-- Every option is found under its own text, and none is called `--aging`. -/
theorem text_found : ∀ flag ∈ Flag.all,
    (Flag.all.find? fun f => decide (f.text = flag.text)) = some flag
      ∧ flag.text ≠ ascii "--aging" := by
  decide +kernel

/-- An option whose value can be read. -/
theorem parseArgs_set {o o' : Options} {flag : Flag} {value : Bytes} (rest : List Bytes)
    (h : flag.set o value = .ok o') :
    parseArgs o (flag.text :: value :: rest) = parseArgs o' rest := by
  obtain ⟨hfound, hne⟩ := text_found flag (mem_all flag)
  rw [parseArgs, if_neg hne, hfound]
  dsimp only
  rw [h]

theorem accept_some {α : Type} {parsed : Option α} {x : α} (h : parsed = some x)
    (message : String) (set : α → Options) : accept parsed message set = .ok (set x) := by
  rw [h]
  rfl

theorem accept_number {n maxValue : Nat} (h : 1 ≤ n ∧ n ≤ maxValue) (hmax : maxValue < 2 ^ 64)
    (message : String) (set : Nat → Options) :
    accept (parseUnsigned (toDecimal n) maxValue) message set = .ok (set n) :=
  accept_some (parseUnsigned_toDecimal h.1 h.2 hmax) message set

theorem set_lockModeName (o : Options) (mode : LockMode) :
    Flag.lockMode.set o (ascii (lockModeName mode)) = .ok { o with lockMode := mode } := by
  rw [Flag.set, (lockModeName_word _).1]

theorem set_peer (o : Options) {host : Bytes} {port : Nat} (hhost : host ≠ [])
    (hport : 1 ≤ port ∧ port ≤ 65535) :
    Flag.peer.set o (host ++ colon :: toDecimal port)
      = .ok { o with replConfig := { o.replConfig with peerHost := host, peerPort := port } } := by
  rw [Flag.set, acceptPeer, splitPeer_append host (not_mem_toDecimal (by decide) port)]
  dsimp only
  rw [if_neg (not_or.mpr ⟨hhost, toDecimal_ne_nil port⟩), accept_number hport (by decide),
    Nat.mod_eq_of_lt (by omega)]

theorem set_replPort (o : Options) {port : Nat} (hport : 1 ≤ port ∧ port ≤ 65535) :
    Flag.replPort.set o (toDecimal port)
      = .ok { o with replConfig := { o.replConfig with listenPort := port } } := by
  rw [Flag.set, accept_number hport (by decide), Nat.mod_eq_of_lt (by omega)]

/-- The last two options, which may be absent. -/
theorem parseArgs_log_aging {o : Options} (hlog : o.logPath = []) (haging : o.aging = false)
    (logPath : Bytes) (aging : Bool) :
    parseArgs o ((if logPath = [] then [] else [Flag.log.text, logPath])
        ++ (if aging then [ascii "--aging"] else []))
      = .ok { o with logPath := logPath, aging := aging } := by
  have hflag : ∀ o : Options, o.aging = false →
      parseArgs o (if aging then [ascii "--aging"] else []) = .ok { o with aging := aging } := by
    intro o ho
    cases aging with
    | true => rw [if_pos rfl, parseArgs, if_pos rfl]
    | false => rw [if_neg (by simp), parseArgs, ← ho]
  by_cases hnil : logPath = []
  · rw [if_pos hnil, List.nil_append, hflag o haging, hnil, ← hlog]
  · have hset : Flag.log.set o logPath = .ok { o with logPath := logPath } := if_neg hnil
    rw [if_neg hnil]
    exact (parseArgs_set _ hset).trans (hflag _ haging)

/-- What has been said of a configuration with the first options of `spell`. -/
def upTo (k : Nat) (o : Options) : Options where
  port := if 0 < k then o.port else 6380
  threads := if 1 < k then o.threads else 4
  lockMode := if 2 < k then o.lockMode else .sharded
  shards := if 3 < k then o.shards else 16
  maxMemory := if 4 < k then o.maxMemory else 0
  fsyncMode := if 5 < k then o.fsyncMode else .always
  fsyncIntervalMs := if 6 < k then o.fsyncIntervalMs else 1000
  schedulingPolicy := if 7 < k then o.schedulingPolicy else .fcfs
  replConfig :=
    { role := if 8 < k then o.replConfig.role else .standalone
      listenPort := if 9 < k then o.replConfig.listenPort else 6390
      peerHost := if 10 < k then o.replConfig.peerHost else ascii "127.0.0.1"
      peerPort := if 10 < k then o.replConfig.peerPort else 6390
      mode := if 11 < k then o.replConfig.mode else .async
      ackTimeoutMs := if 14 < k then o.replConfig.ackTimeoutMs else 1000 }
  ioConfig :=
    { mode := if 12 < k then o.ioConfig.mode else .threadPool
      poller := if 13 < k then o.ioConfig.poller else .auto }

theorem parseArgs_spell {o : Options} (h : FieldsInRange o) : parseArgs {} (spell o) = .ok o := by
  have hport : Flag.port.set (upTo 0 o) (toDecimal o.port) = .ok (upTo 1 o) :=
    accept_number h.port (by decide) _ _
  have hthreads : Flag.threads.set (upTo 1 o) (toDecimal o.threads) = .ok (upTo 2 o) :=
    accept_number h.threads (by decide) _ _
  have hlockMode : Flag.lockMode.set (upTo 2 o) (ascii (lockModeName o.lockMode))
      = .ok (upTo 3 o) := set_lockModeName _ _
  have hshards : Flag.shards.set (upTo 3 o) (toDecimal o.shards) = .ok (upTo 4 o) :=
    accept_number h.shards (by decide) _ _
  have hmaxMemory : Flag.maxMemory.set (upTo 4 o) (toDecimal o.maxMemory) = .ok (upTo 5 o) :=
    accept_some (parseMemory_toDecimal h.maxMemory) _ _
  have hfsync : Flag.fsync.set (upTo 5 o) (ascii (fsyncModeName o.fsyncMode)) = .ok (upTo 6 o) :=
    accept_some (fsyncModeName_word _).1 _ _
  have hinterval : Flag.fsyncIntervalMs.set (upTo 6 o) (toDecimal o.fsyncIntervalMs)
      = .ok (upTo 7 o) := accept_number h.fsyncIntervalMs (by decide) _ _
  have hschedule : Flag.schedule.set (upTo 7 o)
      (ascii (schedulingPolicyName o.schedulingPolicy)) = .ok (upTo 8 o) :=
    accept_some (schedulingPolicyName_word _).1 _ _
  have hrole : Flag.role.set (upTo 8 o) (ascii (roleName o.replConfig.role)) = .ok (upTo 9 o) :=
    accept_some (roleName_word _).1 _ _
  have hreplPort : Flag.replPort.set (upTo 9 o) (toDecimal o.replConfig.listenPort)
      = .ok (upTo 10 o) := set_replPort _ h.listenPort
  have hpeer : Flag.peer.set (upTo 10 o)
      (o.replConfig.peerHost ++ colon :: toDecimal o.replConfig.peerPort) = .ok (upTo 11 o) :=
    set_peer _ h.peerHost h.peerPort
  have hreplMode : Flag.replMode.set (upTo 11 o) (ascii (replModeName o.replConfig.mode))
      = .ok (upTo 12 o) := accept_some (replModeName_word _).1 _ _
  have hio : Flag.io.set (upTo 12 o) (ascii (ioModeName o.ioConfig.mode)) = .ok (upTo 13 o) :=
    accept_some (ioModeName_word _).1 _ _
  have hpoller : Flag.poller.set (upTo 13 o) (ascii (pollerKindName o.ioConfig.poller))
      = .ok (upTo 14 o) := accept_some (pollerKindName_word _).1 _ _
  have htimeout : Flag.replAckTimeoutMs.set (upTo 14 o) (toDecimal o.replConfig.ackTimeoutMs)
      = .ok (upTo 15 o) := accept_number h.ackTimeoutMs (by decide) _ _
  show parseArgs (upTo 0 o) (spell o) = .ok o
  unfold spell
  simp only [List.cons_append, List.nil_append]
  rw [parseArgs_set _ hport, parseArgs_set _ hthreads, parseArgs_set _ hlockMode,
    parseArgs_set _ hshards, parseArgs_set _ hmaxMemory, parseArgs_set _ hfsync,
    parseArgs_set _ hinterval, parseArgs_set _ hschedule, parseArgs_set _ hrole,
    parseArgs_set _ hreplPort, parseArgs_set _ hpeer, parseArgs_set _ hreplMode,
    parseArgs_set _ hio, parseArgs_set _ hpoller, parseArgs_set _ htimeout,
    parseArgs_log_aging rfl rfl]
  rfl

/-- The configurations that `main` ends with are the well-formed ones: whatever the arguments
are, it gives up or has a configuration in which every number is in its range (so that none is
cut when it is stored, a pool has a thread and a shard count is not zero), the peer's host is
not empty, a replica has a log, a leader's two ports differ and the poller exists; and each of
these configurations is what `main` ends with for the arguments that spell it. Where the
arguments are C strings, so are the path and the host that are taken from them; and where
these are, so are the arguments that spell the configuration. -/
theorem configurations_wellFormed (epollAvailable : Bool) (o : Options) :
    (∀ args, configure epollAvailable args = .ok o →
        WellFormed epollAvailable o ∧ ((∀ arg ∈ args, CString arg) → o.CStrings))
      ∧ (WellFormed epollAvailable o → configure epollAvailable (spell o) = .ok o)
      ∧ (o.CStrings → ∀ arg ∈ spell o, CString arg) := by
  refine ⟨fun args h => ⟨wellFormed_configure h, fun hargs => cStrings_configure hargs h⟩,
    fun h => ?_, cString_spell⟩
  have hport := h.port
  unfold configure
  rw [parseArgs_spell h.toFieldsInRange]
  dsimp only
  unfold check
  rw [if_neg fun hno => h.log hno.1 hno.2, if_neg fun hno => h.ports hno.1 ?_,
    if_neg fun hno => by simp [h.poller hno.1] at hno]
  rw [hno.2, Nat.mod_eq_of_lt (by omega)]

end KvStore.Main
