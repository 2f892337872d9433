import Mathlib.Algebra.GroupWithZero.Nat
import Mathlib.Data.List.Basic

/-!
# Self-delimiting records in a byte stream

A log, or a stream between two machines, is records laid end to end. Nothing
marks where one stops except the record itself, and whoever reads it back may
see it cut anywhere. This file says what a record format owes such a reader, and
what follows from that for a reader that takes records off the front of a buffer
until something stops it.

A format is good enough when three things hold:

* a whole record at the front parses, whatever follows it;
* a record cut short is recognised as incomplete, never as damaged or as some
  other record;
* whatever parses *is* the framing of what it parsed to.

Everything else here is a consequence. `scan` is the reader; its callback is the
part that differs between a recovery and a replication link.
-/

namespace KvStore.Lib

variable {α β σ : Type}

/-- What a parser makes of the front of a buffer. -/
inductive Parsed (α β : Type) where
  | ok (a : α) (rest : List β)
  | incomplete
  | corrupt

/-- A record format that can be read off a stream. -/
structure FrameCode (α β : Type) where
  /-- The records the format can carry. -/
  Valid : α → Prop
  frame : α → List β
  parse : List β → Parsed α β
  frame_pos : ∀ a, 0 < (frame a).length
  /-- A whole record parses, whatever follows. -/
  parse_frame : ∀ {a : α} (s : List β), Valid a → parse (frame a ++ s) = .ok a s
  /-- A record cut short is incomplete. -/
  parse_cut : ∀ {a : α} {q s : List β}, Valid a → frame a = q ++ s → s ≠ [] → parse q = .incomplete
  /-- Whatever parses is the framing of what it parsed to. -/
  ok_frame : ∀ {b s : List β} {a : α}, parse b = .ok a s → Valid a ∧ b = frame a ++ s

/-- Why a reader stopped. -/
inductive Stop where
  | done
  | cut
  | corrupt
  | rejected
  deriving DecidableEq, Repr

/-- Where a reader stopped: its state, what it left unread, and why. -/
structure Scanned (σ β : Type) where
  state : σ
  rest : List β
  stop : Stop

/-! ## The most that fits -/

/-- The most elements from the front that `k` has room for. -/
def fitting (size : α → Nat) : List α → Nat → List α
  | [], _ => []
  | a :: as, k => if size a ≤ k then a :: fitting size as (k - size a) else []

section Fitting

variable {size : α → Nat}

theorem fitting_front (size : α → Nat) (as : List α) (k : Nat) : fitting size as k <+: as := by
  induction as generalizing k with
  | nil => exact List.prefix_rfl
  | cons a as ih =>
      rw [fitting]
      split
      · exact List.cons_prefix_cons.mpr ⟨rfl, ih _⟩
      · exact List.nil_prefix

theorem sum_fitting_le (size : α → Nat) (as : List α) (k : Nat) :
    ((fitting size as k).map size).sum ≤ k := by
  induction as generalizing k with
  | nil => exact Nat.zero_le _
  | cons a as ih =>
      rw [fitting]
      split
      · have hrest := ih (k - size a)
        rw [List.map_cons, List.sum_cons]
        omega
      · exact Nat.zero_le _

theorem prefix_fitting {ds as : List α} {k : Nat} (h : ds <+: as) (hle : (ds.map size).sum ≤ k) :
    ds <+: fitting size as k := by
  induction as generalizing ds k with
  | nil => exact h
  | cons a as ih =>
      cases ds with
      | nil => exact List.nil_prefix
      | cons d ds =>
          obtain ⟨rfl, hds⟩ := List.cons_prefix_cons.mp h
          rw [List.map_cons, List.sum_cons] at hle
          rw [fitting, if_pos (by omega)]
          exact List.cons_prefix_cons.mpr ⟨rfl, ih hds (by omega)⟩

theorem fitting_mono (size : α → Nat) (as : List α) {k k' : Nat} (h : k ≤ k') :
    fitting size as k <+: fitting size as k' :=
  prefix_fitting (fitting_front size as k) (Nat.le_trans (sum_fitting_le size as k) h)

/-- More room that is not used is not needed. -/
theorem fitting_eq_of_sum_le {as : List α} {k k' : Nat} (h : k ≤ k')
    (hle : ((fitting size as k').map size).sum ≤ k) : fitting size as k' = fitting size as k :=
  (prefix_fitting (fitting_front size as k') hle).eq_of_length_le (fitting_mono size as h).length_le

end Fitting

namespace FrameCode

variable (C : FrameCode α β)

/-- Records laid end to end. -/
def frames (as : List α) : List β := as.flatMap C.frame

@[simp] theorem frames_nil : C.frames [] = [] := rfl

@[simp] theorem frames_cons (a : α) (as : List α) :
    C.frames (a :: as) = C.frame a ++ C.frames as := rfl

/-- Take records off the front until the buffer, the parser or the callback stops us. -/
def scan (cb : σ → α → Option σ) (st : σ) (buf : List β) : Scanned σ β :=
  match buf with
  | [] => ⟨st, [], .done⟩
  | b :: bs =>
      match _h : C.parse (b :: bs) with
      | .incomplete => ⟨st, b :: bs, .cut⟩
      | .corrupt => ⟨st, b :: bs, .corrupt⟩
      | .ok a rest =>
          match cb st a with
          | none => ⟨st, b :: bs, .rejected⟩
          | some st' => scan cb st' rest
termination_by buf.length
decreasing_by
  have hlen := congrArg List.length (C.ok_frame _h).2
  have hpos := C.frame_pos a
  rw [List.length_append] at hlen
  omega

variable {C} {cb : σ → α → Option σ} {st : σ}

theorem scan_nil : C.scan cb st [] = ⟨st, [], .done⟩ := by rw [scan]

theorem scan_incomplete {buf : List β} (hne : buf ≠ []) (h : C.parse buf = .incomplete) :
    C.scan cb st buf = ⟨st, buf, .cut⟩ := by
  cases buf with
  | nil => exact absurd rfl hne
  | cons b bs => rw [scan]; split <;> simp_all

theorem scan_corrupt {buf : List β} (hne : buf ≠ []) (h : C.parse buf = .corrupt) :
    C.scan cb st buf = ⟨st, buf, .corrupt⟩ := by
  cases buf with
  | nil => exact absurd rfl hne
  | cons b bs => rw [scan]; split <;> simp_all

theorem scan_ok {buf rest : List β} {a : α} (h : C.parse buf = .ok a rest) :
    C.scan cb st buf =
      match cb st a with
      | none => ⟨st, buf, .rejected⟩
      | some st' => C.scan cb st' rest := by
  cases buf with
  | nil =>
      -- a record has a byte at least, so nothing parses off an empty buffer
      have hlen := congrArg List.length (C.ok_frame h).2
      have hpos := C.frame_pos a
      rw [List.length_append, List.length_nil] at hlen
      omega
  | cons b bs =>
      rw [scan]
      split
      · rename_i h'; rw [h] at h'; exact absurd h' (by simp)
      · rename_i h'; rw [h] at h'; exact absurd h' (by simp)
      · rename_i a' rest' h'
        rw [h] at h'
        injection h' with h1 h2
        subst h1; subst h2
        rfl

/-- **Records the callback accepts are consumed**, and the reader carries on behind them. -/
theorem scan_frames {as : List α} {st' : σ} (tail : List β) (hv : ∀ a ∈ as, C.Valid a)
    (hcb : as.foldlM cb st = some st') :
    C.scan cb st (C.frames as ++ tail) = C.scan cb st' tail := by
  induction as generalizing st with
  | nil =>
      have : st = st' := by simpa using hcb
      rw [this]; rfl
  | cons a as ih =>
      rw [List.foldlM_cons] at hcb
      obtain ⟨st1, h1, h2⟩ := Option.bind_eq_some_iff.mp hcb
      rw [frames_cons, List.append_assoc,
        scan_ok (C.parse_frame _ (hv a (List.mem_cons_self ..))), h1]
      exact ih (fun x hx => hv x (List.mem_cons_of_mem _ hx)) h2

/-- A record cut short stops the reader without a trace. -/
theorem scan_cut {a : α} {q s : List β} (hv : C.Valid a) (hq : C.frame a = q ++ s)
    (hne : q ≠ []) (hs : s ≠ []) : C.scan cb st q = ⟨st, q, .cut⟩ :=
  scan_incomplete hne (C.parse_cut hv hq hs)

/-- A record the callback refuses stops the reader in front of it. -/
theorem scan_reject {a : α} (s : List β) (hv : C.Valid a) (hcb : cb st a = none) :
    C.scan cb st (C.frame a ++ s) = ⟨st, C.frame a ++ s, .rejected⟩ := by
  rw [scan_ok (C.parse_frame s hv), hcb]

/-! ## Cutting a stream of records -/

/-- Bytes that begin alike begin with the same records. -/
theorem frames_prefix {as bs : List α} (ha : ∀ a ∈ as, C.Valid a) (hb : ∀ b ∈ bs, C.Valid b)
    (h : C.frames as <+: C.frames bs) : as <+: bs := by
  induction as generalizing bs with
  | nil => exact List.nil_prefix
  | cons a as ih =>
      obtain ⟨tail, htail⟩ := h
      rw [frames_cons, List.append_assoc] at htail
      cases bs with
      | nil =>
          have hlen := congrArg List.length htail
          have hpos := C.frame_pos a
          rw [List.length_append, frames_nil, List.length_nil] at hlen
          omega
      | cons b bs =>
          -- one buffer, two ways to read its first record
          have hparse := C.parse_frame (C.frames as ++ tail) (ha a (List.mem_cons_self ..))
          rw [htail, frames_cons, C.parse_frame _ (hb b (List.mem_cons_self ..))] at hparse
          injection hparse with hab hrest
          rw [hab]
          refine List.cons_prefix_cons.mpr ⟨rfl, ih (fun x hx => ha x (List.mem_cons_of_mem _ hx))
            (fun x hx => hb x (List.mem_cons_of_mem _ hx)) ⟨tail, hrest.symm⟩⟩

/--
**A stream cut anywhere is whole records and at most one cut one.** The records
that survive are the longest list of them the cut leaves room for.
-/
theorem frames_take (as : List α) (k : Nat) :
    ∃ (bs cs : List α) (q : List β), as = bs ++ cs
      ∧ (C.frames as).take k = C.frames bs ++ q
      ∧ (q = [] ∨ ∃ (c : α) (cs' : List α) (s : List β), cs = c :: cs'
          ∧ C.frame c = q ++ s ∧ s ≠ [])
      ∧ ∀ ds : List α, ds <+: as → (C.frames ds).length ≤ k → ds <+: bs := by
  induction as generalizing k with
  | nil => exact ⟨[], [], [], by simp, by simp, Or.inl rfl, fun ds h _ => h⟩
  | cons a as ih =>
      by_cases hk : (C.frame a).length ≤ k
      · -- the cut falls behind the first record
        obtain ⟨bs, cs, q, h1, h2, h3, h4⟩ := ih (k - (C.frame a).length)
        refine ⟨a :: bs, cs, q, by rw [h1]; rfl, ?_, h3, ?_⟩
        · rw [frames_cons, List.take_append, List.take_of_length_le hk, h2, frames_cons,
            List.append_assoc]
        · intro ds hds hlen
          cases ds with
          | nil => exact List.nil_prefix
          | cons d ds =>
              obtain ⟨rfl, hds'⟩ := List.cons_prefix_cons.mp hds
              rw [frames_cons, List.length_append] at hlen
              exact List.cons_prefix_cons.mpr ⟨rfl, h4 ds hds' (by omega)⟩
      · -- the cut falls inside it
        refine ⟨[], a :: as, (C.frame a).take k, rfl, ?_,
          Or.inr ⟨a, as, (C.frame a).drop k, rfl, by simp, ?_⟩, ?_⟩
        · rw [frames_cons, List.take_append_of_le_length (by omega)]; rfl
        · intro h
          have := congrArg List.length h
          rw [List.length_drop, List.length_nil] at this
          omega
        · intro ds hds hlen
          cases ds with
          | nil => exact List.nil_prefix
          | cons d ds =>
              obtain ⟨rfl, _⟩ := List.cons_prefix_cons.mp hds
              rw [frames_cons, List.length_append] at hlen
              omega

/-- The same, with the records that the cut leaves room for by name. -/
theorem take_frames (as : List α) (k : Nat) :
    ∃ q, (C.frames as).take k = C.frames (fitting (fun a => (C.frame a).length) as k) ++ q
      ∧ (q = [] ∨ ∃ c ∈ as, ∃ s, C.frame c = q ++ s ∧ s ≠ []) := by
  obtain ⟨bs, cs, q, rfl, htake, hq, hmax⟩ := frames_take (C := C) as k
  have hlen (ds : List α) :
      (C.frames ds).length = (ds.map fun a => (C.frame a).length).sum := List.length_flatMap
  have hbs : (C.frames bs).length ≤ k := by
    have := congrArg List.length htake
    rw [List.length_take, List.length_append] at this
    omega
  have hfit : fitting (fun a => (C.frame a).length) (bs ++ cs) k = bs := by
    have hle := prefix_fitting (List.prefix_append bs cs) (hlen bs ▸ hbs)
    have hge := hmax _ (fitting_front (fun a => (C.frame a).length) (bs ++ cs) k)
      (by rw [hlen]; exact sum_fitting_le _ _ k)
    exact hge.eq_of_length_le hle.length_le
  rw [hfit]
  refine ⟨q, htake, hq.imp id ?_⟩
  rintro ⟨c, cs', s, rfl, hc, hs⟩
  exact ⟨c, by simp, s, hc, hs⟩

end FrameCode

end KvStore.Lib
