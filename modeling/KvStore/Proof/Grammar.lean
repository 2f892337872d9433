import KvStore.Lib.Words
import KvStore.Protocol.Parser
import Mathlib.Data.List.Forall2

/-!
# What the parser accepts

The grammar of the commands, said without positions: blanks, a verb in capital or small
letters, and what the verb is followed by. The parser reads every line that has one of
these forms, and gives back its parts; every other line is invalid.

A line is nothing but blanks, or blanks and a word and what comes behind it, in one way
only (`Lib/Words`). So it is enough to look at what the parser does behind a verb
(`dispatch`), and that is a list of cases (`dispatched`).
-/

namespace KvStore.Protocol

open Lib
open Repl (ascii space)

/-! ## The grammar -/

/-- A verb, in capital or small letters; `verb` is in capital letters. -/
def Spells (verb w : Bytes) : Prop := List.Forall₂ (fun c b => b = c ∨ b = c + 32) verb w

/-- The first word of a line. -/
def FirstWord (line w : Bytes) : Prop :=
  ∃ front r, line = front ++ w ++ r ∧ Blank space front ∧ Word space w ∧ Behind space r

/-- The first word of the line is this verb, in whatever case. -/
def VerbLine (verb line : Bytes) : Prop := ∃ w, FirstWord line w ∧ Spells verb w

/-- The line is a verb and a key; what is behind the key does not matter. -/
def KeyLine (verb line k : Bytes) : Prop :=
  ∃ s₀ w s₁ r, line = s₀ ++ w ++ s₁ ++ k ++ r ∧ Blank space s₀ ∧ Spells verb w
    ∧ Blank space s₁ ∧ s₁ ≠ [] ∧ Word space k ∧ Behind space r

/-- The line is `SET`, a key, and the rest of the line as the value. -/
def SetLine (line k v : Bytes) : Prop :=
  ∃ s₀ w s₁ s₂, line = s₀ ++ w ++ s₁ ++ k ++ s₂ ++ v ∧ Blank space s₀ ∧ Spells (ascii "SET") w
    ∧ Blank space s₁ ∧ s₁ ≠ [] ∧ Word space k ∧ Blank space s₂ ∧ s₂ ≠ [] ∧ Text space v

/-- The commands that take nothing but their verb. -/
def nullary : List (CommandType × Bytes) :=
  [(.stats, ascii "STATS"), (.compact, ascii "COMPACT"), (.begin, ascii "BEGIN"),
    (.commit, ascii "COMMIT"), (.rollback, ascii "ROLLBACK"), (.quit, ascii "QUIT")]

/-! ## Verbs -/

/-- Capital letters only, and not none. -/
def Capital (verb : Bytes) : Prop := verb ≠ [] ∧ ∀ c ∈ verb, 65 ≤ c ∧ c ≤ 90

instance (verb : Bytes) : Decidable (Capital verb) :=
  @instDecidableAnd _ _ inferInstance (List.decidableBAll _ verb)

theorem capital_nullary : ∀ p ∈ nullary, Capital p.2 := by decide

theorem capital_keyed :
    ∀ p ∈ [(CommandType.get, ascii "GET"), (.del, ascii "DEL")], Capital p.2 := by decide

theorem capital_set : Capital (ascii "SET") := by decide

/-- `std::toupper` on one byte. -/
theorem toupper_eq_iff {c : UInt8} (hc : 65 ≤ c ∧ c ≤ 90) (b : UInt8) :
    (if 97 ≤ b ∧ b ≤ 122 then b - 32 else b) = c ↔ b = c ∨ b = c + 32 := by
  have h65 : (65 : UInt8).toNat = 65 := rfl
  have h90 : (90 : UInt8).toNat = 90 := rfl
  have h97 : (97 : UInt8).toNat = 97 := rfl
  have h122 : (122 : UInt8).toNat = 122 := rfl
  have h32 : (32 : UInt8).toNat = 32 := rfl
  have hadd : (c + 32).toNat = (c.toNat + 32) % 256 := UInt8.toNat_add c 32
  have hlt := b.toNat_lt
  -- everything is a matter of numbers below 256
  simp only [UInt8.le_iff_toNat_le, h65, h90, h97, h122] at hc ⊢
  rw [← UInt8.toNat_inj, ← UInt8.toNat_inj, ← UInt8.toNat_inj, hadd]
  split
  · rename_i hsmall
    have hsub : (b - 32).toNat = b.toNat - 32 :=
      UInt8.toNat_sub_of_le _ _ (UInt8.le_iff_toNat_le.mpr (by omega))
    rw [hsub]
    omega
  · omega

theorem upper_eq_iff {verb : Bytes} (h : ∀ c ∈ verb, 65 ≤ c ∧ c ≤ 90) (w : Bytes) :
    upper w = verb ↔ Spells verb w := by
  induction verb generalizing w with
  | nil =>
      unfold Spells upper
      rw [List.forall₂_nil_left_iff, List.map_eq_nil_iff]
  | cons c verb ih =>
      obtain ⟨hc, hverb⟩ := List.forall_mem_cons.mp h
      cases w with
      | nil => exact iff_of_false (by simp [upper]) (by simp [Spells])
      | cons b w =>
          rw [Spells, List.forall₂_cons, ← toupper_eq_iff hc b, upper, List.map_cons,
            List.cons.injEq]
          exact and_congr_right fun _ => ih hverb w

/-- A verb is a word. -/
theorem Spells.word {verb w : Bytes} (hverb : Capital verb) (h : Spells verb w) : Word space w := by
  refine ⟨fun hnil => hverb.1 ?_, fun hspace => ?_⟩
  · subst hnil
    exact List.forall₂_nil_right_iff.mp h
  · -- a blank is the capital of itself, and not a letter
    have hmem : space ∈ upper w := List.mem_map.mpr ⟨space, hspace, by decide⟩
    rw [(upper_eq_iff hverb.2 w).mpr h] at hmem
    exact absurd (hverb.2 space hmem) (by decide)

/-! ## Behind the verb -/

/-- What `parse` does with a verb that takes a key, and what follows it. -/
def keyed (verb rest : Bytes) : ParsedCommand :=
  match skipSpaces rest with
  | none => invalid (verb ++ ascii " requires a key")
  | some line =>
      if verb ≠ ascii "SET" then
        { type := if verb = ascii "GET" then .get else .del, key := line.takeWhile (· ≠ space) }
      else
        match skipSpaces (line.dropWhile (· ≠ space)) with
        | none => invalid (ascii "SET requires a value")
        | some value => { type := .set, key := line.takeWhile (· ≠ space), value := value }

/-- What it does with any verb. -/
def dispatch (verb rest : Bytes) : ParsedCommand :=
  if verb = ascii "STATS" then { type := .stats }
  else if verb = ascii "COMPACT" then { type := .compact }
  else if verb = ascii "BEGIN" then { type := .begin }
  else if verb = ascii "COMMIT" then { type := .commit }
  else if verb = ascii "ROLLBACK" then { type := .rollback }
  else if verb = ascii "QUIT" then { type := .quit }
  else if ¬ (verb = ascii "SET" ∨ verb = ascii "GET" ∨ verb = ascii "DEL") then
    invalid (ascii "unknown command '" ++ verb ++ ascii "'")
  else keyed verb rest

theorem skipSpaces_text {s t : Bytes} (hs : Blank space s) (ht : Text space t) :
    skipSpaces (s ++ t) = some t := by
  unfold skipSpaces
  rw [dropWhile_blank hs ht]
  cases t with
  | nil => exact absurd rfl ht.1
  | cons b t => rfl

theorem skipSpaces_blank {s : Bytes} (hs : Blank space s) : skipSpaces s = none := by
  unfold skipSpaces
  rw [dropWhile_blank_nil hs]

theorem parse_blank {line : Bytes} (h : Blank space line) :
    parse line = invalid (ascii "empty command") := by
  unfold parse
  rw [skipSpaces_blank h]

theorem parse_word {front w r : Bytes} (hfront : Blank space front) (hw : Word space w)
    (hr : Behind space r) : parse (front ++ (w ++ r)) = dispatch (upper w) r := by
  obtain ⟨htake, hdrop⟩ := span_word hw.2 hr
  unfold parse
  rw [skipSpaces_text hfront (hw.text r)]
  dsimp only
  rw [htake, hdrop]
  rfl

theorem dispatch_nullary {type : CommandType} {verb : Bytes} (h : (type, verb) ∈ nullary)
    (rest : Bytes) : dispatch verb rest = { type := type } := by
  simp only [nullary, List.mem_cons, Prod.mk.injEq, List.not_mem_nil, or_false] at h
  rcases h with ⟨rfl, rfl⟩ | ⟨rfl, rfl⟩ | ⟨rfl, rfl⟩ | ⟨rfl, rfl⟩ | ⟨rfl, rfl⟩ | ⟨rfl, rfl⟩ <;> rfl

theorem dispatch_keyed {verb : Bytes}
    (h : verb = ascii "SET" ∨ verb = ascii "GET" ∨ verb = ascii "DEL") (rest : Bytes) :
    dispatch verb rest = keyed verb rest := by
  rcases h with rfl | rfl | rfl <;> rfl

/-- The key is there. -/
theorem keyed_key {verb s k r : Bytes} (hverb : verb ≠ ascii "SET") (hs : Blank space s)
    (hk : Word space k) (hr : Behind space r) :
    keyed verb (s ++ (k ++ r))
      = { type := if verb = ascii "GET" then .get else .del, key := k } := by
  unfold keyed
  rw [skipSpaces_text hs (hk.text r)]
  dsimp only
  rw [if_pos hverb, (span_word hk.2 hr).1]

theorem keyed_value {s k s' v : Bytes} (hs : Blank space s) (hk : Word space k)
    (hs' : Blank space s') (hne : s' ≠ []) (hv : Text space v) :
    keyed (ascii "SET") (s ++ (k ++ (s' ++ v))) = { type := .set, key := k, value := v } := by
  obtain ⟨htake, hdrop⟩ := span_word hk.2 (hs'.behind (t := v) hne)
  unfold keyed
  rw [skipSpaces_text hs (hk.text _)]
  dsimp only
  rw [if_neg (by simp), htake, hdrop, skipSpaces_text hs' hv]

/-- **The cases of `dispatch`**, for what can stand behind a verb. -/
inductive Dispatched (verb rest : Bytes) : ParsedCommand → Prop
  | nullary {type : CommandType} (h : (type, verb) ∈ nullary) :
      Dispatched verb rest { type := type }
  | keyed {s k r : Bytes} {type : CommandType}
      (h : (type, verb) ∈ [(CommandType.get, ascii "GET"), (.del, ascii "DEL")])
      (hrest : rest = s ++ (k ++ r)) (hs : Blank space s) (hne : s ≠ []) (hk : Word space k)
      (hr : Behind space r) : Dispatched verb rest { type := type, key := k }
  | set {s k s' v : Bytes} (h : verb = ascii "SET") (hrest : rest = s ++ (k ++ (s' ++ v)))
      (hs : Blank space s) (hne : s ≠ []) (hk : Word space k) (hs' : Blank space s')
        (hne' : s' ≠ [])
      (hv : Text space v) : Dispatched verb rest { type := .set, key := k, value := v }
  | invalid (why : Bytes) : Dispatched verb rest (invalid why)

/-- Blanks in front of something that is not in front of a word are some. -/
theorem ne_nil_of_behind {s t : Bytes} (h : Behind space (s ++ t)) (ht : Text space t) :
    s ≠ [] := by
  rintro rfl
  exact h.elim ht.1 ht.2

theorem keyed_cases {verb rest : Bytes} (hrest : Behind space rest)
    (h : verb = ascii "SET" ∨ verb = ascii "GET" ∨ verb = ascii "DEL") :
    Dispatched verb rest (keyed verb rest) := by
  rcases blank_or_text space rest with hblank | ⟨s, t, rfl, hs, ht⟩
  · unfold keyed
    rw [skipSpaces_blank hblank]
    exact .invalid _
  · obtain ⟨k, r, rfl, hk, hr⟩ := ht.word
    have hne := ne_nil_of_behind hrest ht
    rcases h with rfl | rfl | rfl
    · -- `SET` takes all that is behind the blanks after its key
      rcases blank_or_text space r with hblank | ⟨s', v, rfl, hs', hv⟩
      · obtain ⟨htake, hdrop⟩ := span_word hk.2 hr
        unfold keyed
        rw [skipSpaces_text hs ht]
        dsimp only
        rw [if_neg (by simp), hdrop, skipSpaces_blank hblank]
        exact .invalid _
      · have hne' := ne_nil_of_behind hr hv
        rw [keyed_value hs hk hs' hne' hv]
        exact .set rfl rfl hs hne hk hs' hne' hv
    · rw [keyed_key (by decide) hs hk hr]
      exact .keyed (by decide) rfl hs hne hk hr
    · rw [keyed_key (by decide) hs hk hr]
      exact .keyed (by decide) rfl hs hne hk hr

theorem dispatch_unknown {verb : Bytes} (hnullary : ∀ type, (type, verb) ∉ nullary)
    (hkeyed : ¬ (verb = ascii "SET" ∨ verb = ascii "GET" ∨ verb = ascii "DEL")) (rest : Bytes) :
    dispatch verb rest = invalid (ascii "unknown command '" ++ verb ++ ascii "'") := by
  have hne (type : CommandType) {v : Bytes} (hmem : (type, v) ∈ nullary) : verb ≠ v := by
    rintro rfl
    exact hnullary type hmem
  rw [dispatch, if_neg (hne .stats (by decide)), if_neg (hne .compact (by decide)),
    if_neg (hne .begin (by decide)), if_neg (hne .commit (by decide)),
    if_neg (hne .rollback (by decide)), if_neg (hne .quit (by decide)), if_pos hkeyed]

theorem dispatched (verb : Bytes) {rest : Bytes} (hrest : Behind space rest) :
    Dispatched verb rest (dispatch verb rest) := by
  by_cases hnullary : ∃ type, (type, verb) ∈ nullary
  · obtain ⟨type, htype⟩ := hnullary
    rw [dispatch_nullary htype]
    exact .nullary htype
  · by_cases hkeyed : verb = ascii "SET" ∨ verb = ascii "GET" ∨ verb = ascii "DEL"
    · rw [dispatch_keyed hkeyed]
      exact keyed_cases hrest hkeyed
    · rw [dispatch_unknown (not_exists.mp hnullary) hkeyed]
      exact .invalid _

/-! ## Sound and complete -/

theorem parse_verbLine {type : CommandType} {verb line : Bytes} (h : (type, verb) ∈ nullary)
    (hline : VerbLine verb line) : parse line = { type := type } := by
  obtain ⟨w, ⟨front, r, rfl, hfront, hw, hr⟩, hspells⟩ := hline
  rw [List.append_assoc, parse_word hfront hw hr,
    (upper_eq_iff (capital_nullary _ h).2 w).mpr hspells, dispatch_nullary h]

theorem parse_keyLine {type : CommandType} {verb line k : Bytes}
    (h : (type, verb) ∈ [(CommandType.get, ascii "GET"), (.del, ascii "DEL")])
    (hline : KeyLine verb line k) : parse line = { type := type, key := k } := by
  obtain ⟨s₀, w, s₁, r, rfl, hs₀, hspells, hs₁, hne, hk, hr⟩ := hline
  have hcapital := capital_keyed _ h
  rw [List.append_assoc, List.append_assoc, List.append_assoc,
    parse_word hs₀ (hspells.word hcapital) (hs₁.behind hne),
    (upper_eq_iff hcapital.2 w).mpr hspells]
  simp only [List.mem_cons, Prod.mk.injEq, List.not_mem_nil, or_false] at h
  rcases h with ⟨rfl, rfl⟩ | ⟨rfl, rfl⟩
  · rw [dispatch_keyed (by decide), keyed_key (by decide) hs₁ hk hr]
    rfl
  · rw [dispatch_keyed (by decide), keyed_key (by decide) hs₁ hk hr]
    rfl

theorem parse_setLine {line k v : Bytes} (hline : SetLine line k v) :
    parse line = { type := .set, key := k, value := v } := by
  obtain ⟨s₀, w, s₁, s₂, rfl, hs₀, hspells, hs₁, hne, hk, hs₂, hne', hv⟩ := hline
  simp only [List.append_assoc]
  rw [parse_word hs₀ (hspells.word capital_set) (hs₁.behind hne),
    (upper_eq_iff capital_set.2 w).mpr hspells, dispatch_keyed (by decide),
    keyed_value hs₁ hk hs₂ hne' hv]

/-- What a line can be, and what becomes of it. -/
inductive Parsed (line : Bytes) : ParsedCommand → Prop
  | verb {type : CommandType} {verb : Bytes} (h : (type, verb) ∈ nullary)
      (hline : VerbLine verb line) : Parsed line { type := type }
  | key {type : CommandType} {verb k : Bytes}
      (h : (type, verb) ∈ [(CommandType.get, ascii "GET"), (.del, ascii "DEL")])
      (hline : KeyLine verb line k) : Parsed line { type := type, key := k }
  | set {k v : Bytes} (hline : SetLine line k v) :
      Parsed line { type := .set, key := k, value := v }
  | invalid (why : Bytes) : Parsed line (invalid why)

theorem parsed (line : Bytes) : Parsed line (parse line) := by
  rcases blank_or_text space line with hblank | ⟨front, t, rfl, hfront, ht⟩
  · rw [parse_blank hblank]
    exact .invalid _
  · obtain ⟨w, r, rfl, hw, hr⟩ := ht.word
    rw [parse_word hfront hw hr]
    -- a verb that is known is in capital letters, so the word spells it
    have hspells {verb : Bytes} (hverb : upper w = verb) (hcapital : Capital verb) :
        Spells verb w := (upper_eq_iff hcapital.2 w).mp hverb
    generalize hverb : upper w = verb
    have hcases := dispatched verb hr
    generalize dispatch verb r = cmd at hcases ⊢
    cases hcases with
    | nullary h =>
        exact .verb h ⟨w, ⟨front, r, (List.append_assoc ..).symm, hfront, hw, hr⟩,
          hspells hverb (capital_nullary _ h)⟩
    | @keyed s k r' type h hrest hs hne hk hr' =>
        exact .key h ⟨front, w, s, r', by rw [hrest]; simp, hfront,
          hspells hverb (capital_keyed _ h), hs, hne, hk, hr'⟩
    | @set s k s' v h hrest hs hne hk hs' hne' hv =>
        subst h
        exact .set ⟨front, w, s, s', by rw [hrest]; simp, hfront, hspells hverb capital_set, hs,
          hne, hk, hs', hne', hv⟩
    | invalid why => exact .invalid why

/-! ## Which form gave the command -/

/-- The commands with an argument are not among those without. -/
theorem nullary_type {type : CommandType} {verb : Bytes} (h : (type, verb) ∈ nullary) :
    type ≠ .set ∧ type ≠ .get ∧ type ≠ .del ∧ type ≠ .invalid := by
  have hall : ∀ p ∈ nullary, p.1 ≠ .set ∧ p.1 ≠ .get ∧ p.1 ≠ .del ∧ p.1 ≠ .invalid := by decide
  exact hall _ h

theorem nullary_verb {type : CommandType} {verb verb' : Bytes} (h : (type, verb) ∈ nullary)
    (h' : (type, verb') ∈ nullary) : verb = verb' := by
  have hall : ∀ p ∈ nullary, ∀ p' ∈ nullary, p.1 = p'.1 → p.2 = p'.2 := by decide
  exact hall _ h _ h' rfl

theorem keyed_type {type : CommandType} {verb : Bytes}
    (h : (type, verb) ∈ [(CommandType.get, ascii "GET"), (.del, ascii "DEL")]) :
    (type = .get ∧ verb = ascii "GET") ∨ (type = .del ∧ verb = ascii "DEL") := by
  simpa using h

theorem setLine_of_parse {line k v : Bytes}
    (h : parse line = { type := .set, key := k, value := v }) : SetLine line k v := by
  have hcases := parsed line
  rw [h] at hcases
  generalize hcmd : ({ type := .set, key := k, value := v } : ParsedCommand) = cmd at hcases
  cases hcases with
  | verb hverb => exact absurd (congrArg ParsedCommand.type hcmd).symm (nullary_type hverb).1
  | key hkey =>
      rcases keyed_type hkey with ⟨rfl, -⟩ | ⟨rfl, -⟩ <;> exact absurd hcmd (by simp)
  | set hline =>
      obtain ⟨-, rfl, rfl, -⟩ := ParsedCommand.mk.inj hcmd
      exact hline
  | invalid why => exact absurd (congrArg ParsedCommand.type hcmd) (by simp [invalid])

theorem keyLine_of_parse {type : CommandType} {verb line k : Bytes}
    (hmem : (type, verb) ∈ [(CommandType.get, ascii "GET"), (.del, ascii "DEL")])
    (h : parse line = { type := type, key := k }) : KeyLine verb line k := by
  have hcases := parsed line
  rw [h] at hcases
  generalize hcmd : ({ type := type, key := k } : ParsedCommand) = cmd at hcases
  have htype : type = .get ∨ type = .del := (keyed_type hmem).imp And.left And.left
  cases hcases with
  | verb hverb =>
      obtain ⟨rfl, -⟩ := ParsedCommand.mk.inj hcmd
      obtain ⟨-, hget, hdel, -⟩ := nullary_type hverb
      exact absurd htype (by simp [hget, hdel])
  | key hkey hline =>
      obtain ⟨rfl, rfl, -⟩ := ParsedCommand.mk.inj hcmd
      rcases keyed_type hmem with ⟨rfl, rfl⟩ | ⟨rfl, rfl⟩
      · obtain ⟨-, rfl⟩ := (keyed_type hkey).resolve_right (by simp)
        exact hline
      · obtain ⟨-, rfl⟩ := (keyed_type hkey).resolve_left (by simp)
        exact hline
  | set hline =>
      obtain ⟨rfl, -⟩ := ParsedCommand.mk.inj hcmd
      exact absurd htype (by simp)
  | invalid why =>
      obtain ⟨rfl, -⟩ := ParsedCommand.mk.inj hcmd
      exact absurd htype (by simp)

theorem verbLine_of_parse {type : CommandType} {verb line : Bytes} (hmem : (type, verb) ∈ nullary)
    (h : parse line = { type := type }) : VerbLine verb line := by
  have hcases := parsed line
  rw [h] at hcases
  generalize hcmd : ({ type := type } : ParsedCommand) = cmd at hcases
  obtain ⟨hset, hget, hdel, hinvalid⟩ := nullary_type hmem
  cases hcases with
  | verb hverb hline =>
      obtain ⟨rfl, -⟩ := ParsedCommand.mk.inj hcmd
      rw [nullary_verb hmem hverb]
      exact hline
  | key hkey =>
      obtain ⟨rfl, -⟩ := ParsedCommand.mk.inj hcmd
      rcases keyed_type hkey with ⟨rfl, -⟩ | ⟨rfl, -⟩
      · exact absurd rfl hget
      · exact absurd rfl hdel
  | set hline => exact absurd (congrArg ParsedCommand.type hcmd) hset
  | invalid why => exact absurd (congrArg ParsedCommand.type hcmd) hinvalid

theorem invalid_of_none {line : Bytes} (hset : ∀ k v, ¬ SetLine line k v)
    (hget : ∀ k, ¬ KeyLine (ascii "GET") line k) (hdel : ∀ k, ¬ KeyLine (ascii "DEL") line k)
    (hverb : ∀ type verb, (type, verb) ∈ nullary → ¬ VerbLine verb line) :
    (parse line).type = .invalid := by
  have hcases := parsed line
  generalize parse line = cmd at hcases ⊢
  cases hcases with
  | verb h hline => exact absurd hline (hverb _ _ h)
  | key h hline =>
      rcases keyed_type h with ⟨rfl, rfl⟩ | ⟨rfl, rfl⟩
      · exact absurd hline (hget _)
      · exact absurd hline (hdel _)
  | set hline => exact absurd hline (hset _ _)
  | invalid why => rfl

/--
**The parser accepts its grammar**, and nothing else: a line is parsed to a command and
its arguments if and only if it has the form of that command with these arguments, and
is invalid if it has none of the forms.
-/
theorem parse_accepts_grammar (line : Bytes) :
    (∀ k v, parse line = { type := .set, key := k, value := v } ↔ SetLine line k v)
      ∧ (∀ k v k' v', SetLine line k v → SetLine line k' v' → k = k' ∧ v = v')
      ∧ (∀ k, parse line = { type := .get, key := k } ↔ KeyLine (ascii "GET") line k)
      ∧ (∀ k, parse line = { type := .del, key := k } ↔ KeyLine (ascii "DEL") line k)
      ∧ (∀ type verb, (type, verb) ∈ nullary →
        (parse line = { type := type } ↔ VerbLine verb line))
      ∧ ((parse line).type = .invalid ↔
        (∀ k v, ¬ SetLine line k v) ∧ (∀ k, ¬ KeyLine (ascii "GET") line k)
          ∧ (∀ k, ¬ KeyLine (ascii "DEL") line k)
          ∧ ∀ type verb, (type, verb) ∈ nullary → ¬ VerbLine verb line)
      ∧ ∀ k v, Word space k → Text space v →
        parse (ascii "SET " ++ k ++ ascii " " ++ v) = { type := .set, key := k, value := v } := by
  have hGet : (CommandType.get, ascii "GET")
      ∈ [(CommandType.get, ascii "GET"), (.del, ascii "DEL")] := by decide
  have hDel : (CommandType.del, ascii "DEL")
      ∈ [(CommandType.get, ascii "GET"), (.del, ascii "DEL")] := by decide
  refine ⟨fun k v => ⟨setLine_of_parse, parse_setLine⟩, fun k v k' v' h h' => ?_,
    fun k => ⟨keyLine_of_parse hGet, parse_keyLine hGet⟩,
    fun k => ⟨keyLine_of_parse hDel, parse_keyLine hDel⟩,
    fun type verb hmem => ⟨verbLine_of_parse hmem, parse_verbLine hmem⟩, ⟨fun h => ?_, ?_⟩,
    fun k v hk hv => parse_setLine ?_⟩
  · -- the parser gives one answer, so a line has one key and one value
    have heq := (parse_setLine h).symm.trans (parse_setLine h')
    obtain ⟨-, hk, hv, -⟩ := ParsedCommand.mk.inj heq
    exact ⟨hk, hv⟩
  · -- a line of any form is parsed to its command, which is not `Invalid`
    refine ⟨fun k v hline => ?_, fun k hline => ?_, fun k hline => ?_,
      fun type verb hmem hline => ?_⟩
    · rw [parse_setLine hline] at h
      exact absurd h (by simp)
    · rw [parse_keyLine hGet hline] at h
      exact absurd h (by simp)
    · rw [parse_keyLine hDel hline] at h
      exact absurd h (by simp)
    · rw [parse_verbLine hmem hline] at h
      exact (nullary_type hmem).2.2.2 h
  · rintro ⟨hset, hget, hdel, hverb⟩
    exact invalid_of_none hset hget hdel hverb
  · have hSet : ascii "SET " = ascii "SET" ++ [space] := by decide
    have hblank : ascii " " = [space] := by decide
    refine ⟨[], ascii "SET", [space], [space], ?_, by decide, ?_, by decide, by decide, hk,
      by decide, by decide, hv⟩
    · rw [hSet, hblank, List.nil_append]
    · exact (upper_eq_iff capital_set.2 _).mp (by decide)

/-- Blanks in front, between and behind, a verb in small letters, and a value with blanks in it. -/
theorem parse_accepts_grammar_blanks :
    SetLine (ascii "  seT  k  v w ") (ascii "k") (ascii "v w ")
      ∧ ¬ VerbLine (ascii "STATS") (ascii "STATSX")
      ∧ parse (ascii "SET " ++ ascii "k" ++ ascii " " ++ ascii "v")
        = { type := .set, key := ascii "k", value := ascii "v" } := by
  obtain ⟨hset, -⟩ := parse_accepts_grammar (ascii "  seT  k  v w ")
  obtain ⟨-, -, -, -, hverb, -, hround⟩ := parse_accepts_grammar (ascii "STATSX")
  refine ⟨(hset _ _).mp (by decide), fun hline => ?_, hround _ _ (by decide) (by decide)⟩
  exact absurd ((hverb .stats _ (by decide)).mpr hline) (by decide)

end KvStore.Protocol
