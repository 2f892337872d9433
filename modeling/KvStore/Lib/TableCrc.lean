import Mathlib.Data.BitVec
import Mathlib.Data.List.GetD
import Mathlib.Logic.Function.Iterate

/-!
# Checksums computed a byte at a time

The state is a word of `w` bits. A byte is added to the low end, the low byte of
the sum selects a table entry, and the entry is added to the word shifted down by
one byte. Nothing is assumed of the table but that its entries differ in their top
bytes (`Apart`): the byte that was shifted out can then be told from what came in
at the top.

Going back through `n` bytes costs the low `8 * n` bits of what is known of the
state (`shiftRight_foldl_step`), so two messages that differ within `w / 8`
consecutive bytes never end in the same state (`foldl_step_burst`).

Where the checksum comes from is a register that takes the message in one bit at a
time. Its round is linear, so the bits that are still to come may as well be added all
at once: eight rounds are one step of the table that holds eight rounds of every byte
(`step_table`).
-/

namespace KvStore.Lib.TableCrc

variable {w : Nat} (table : BitVec 8 → BitVec w)

/-- One byte of the message. -/
def step (crc : BitVec w) (byte : BitVec 8) : BitVec w :=
  table (crc.setWidth 8 ^^^ byte) ^^^ (crc >>> 8)

/-- The entries differ in their top bytes. -/
def Apart : Prop := ∀ i j, table i >>> (w - 8) = table j >>> (w - 8) → i = j

variable {table}

/-- The top byte of the new state is the top byte of the entry alone. -/
theorem step_shiftRight_top (hw : 8 ≤ w) (crc : BitVec w) (byte : BitVec 8) :
    step table crc byte >>> (w - 8) = table (crc.setWidth 8 ^^^ byte) >>> (w - 8) := by
  have hout : crc >>> 8 >>> (w - 8) = 0#w := by
    rw [← BitVec.shiftRight_add]
    exact BitVec.ushiftRight_eq_zero (by omega)
  rw [step, BitVec.ushiftRight_xor_distrib, hout, BitVec.xor_zero]

/-- **One byte back.** What is known of the new state above bit `k` gives the entry that was
used, and the old state above bit `k + 8`. -/
theorem step_back (h : Apart table) {k : Nat} (hk : k + 8 ≤ w) {crc crc' : BitVec w}
    {byte byte' : BitVec 8} (heq : step table crc byte >>> k = step table crc' byte' >>> k) :
    crc.setWidth 8 ^^^ byte = crc'.setWidth 8 ^^^ byte' ∧ crc >>> (k + 8) = crc' >>> (k + 8) := by
  have htop : step table crc byte >>> (w - 8) = step table crc' byte' >>> (w - 8) := by
    have hsplit : w - 8 = k + (w - 8 - k) := by omega
    rw [hsplit, BitVec.shiftRight_add, BitVec.shiftRight_add, heq]
  rw [step_shiftRight_top (by omega), step_shiftRight_top (by omega)] at htop
  have hindex := h _ _ htop
  refine ⟨hindex, ?_⟩
  rw [step, step, BitVec.ushiftRight_xor_distrib, BitVec.ushiftRight_xor_distrib, hindex,
    BitVec.xor_right_inj] at heq
  rw [Nat.add_comm k 8, BitVec.shiftRight_add, BitVec.shiftRight_add]
  exact heq

/-- **Back through a stretch.** The bytes need not be the same. -/
theorem shiftRight_foldl_step (h : Apart table) {bytes bytes' : List (BitVec 8)}
    (hlen : bytes'.length = bytes.length) :
    ∀ {k : Nat} {crc crc' : BitVec w}, k + 8 * bytes.length ≤ w →
      bytes.foldl (step table) crc >>> k = bytes'.foldl (step table) crc' >>> k →
      crc >>> (k + 8 * bytes.length) = crc' >>> (k + 8 * bytes.length) := by
  induction bytes generalizing bytes' with
  | nil =>
      intro k crc crc' _ heq
      rw [List.length_eq_zero_iff.mp hlen] at heq
      exact heq
  | cons b bs ih =>
      intro k crc crc' hk heq
      obtain ⟨b', bs', rfl⟩ := List.exists_cons_of_length_eq_add_one hlen
      rw [List.length_cons] at hk
      rw [List.length_cons, List.length_cons, Nat.add_right_cancel_iff] at hlen
      have hnext := ih hlen (by omega) heq
      have hback := (step_back h (by omega) hnext).2
      rw [List.length_cons, Nat.mul_add, ← Nat.add_assoc]
      exact hback

/-- The low byte and the rest make the word. -/
theorem eq_of_setWidth_of_shiftRight {crc crc' : BitVec w}
    (hlow : crc.setWidth 8 = crc'.setWidth 8) (hhigh : crc >>> 8 = crc' >>> 8) : crc = crc' := by
  refine BitVec.eq_of_getLsbD_eq fun i hi => ?_
  by_cases h8 : i < 8
  · have := congrArg (·.getLsbD i) hlow
    simpa [h8] using this
  · have := congrArg (·.getLsbD (i - 8)) hhigh
    rwa [BitVec.getLsbD_ushiftRight, BitVec.getLsbD_ushiftRight, Nat.add_sub_cancel' (by omega)]
      at this

/-- **The same bytes keep different states apart**, however many there are. -/
theorem foldl_step_injective (h : Apart table) (hw : 8 ≤ w) (bytes : List (BitVec 8)) :
    Function.Injective fun crc => bytes.foldl (step table) crc := by
  induction bytes with
  | nil => exact fun _ _ heq => heq
  | cons b bs ih =>
      intro crc crc' heq
      have hstep : step table crc b >>> 0 = step table crc' b >>> 0 := by rw [ih heq]
      obtain ⟨hindex, hhigh⟩ := step_back h (by omega) hstep
      exact eq_of_setWidth_of_shiftRight (BitVec.xor_left_inj b |>.mp hindex) hhigh

/-- **Bytes that fit into one state are told apart**: from the same state to the same state there
is one way only. -/
theorem foldl_step_burst (h : Apart table) {bytes bytes' : List (BitVec 8)}
    (hlen : bytes'.length = bytes.length) :
    ∀ {crc : BitVec w}, 8 * bytes.length ≤ w →
      bytes.foldl (step table) crc = bytes'.foldl (step table) crc → bytes = bytes' := by
  induction bytes generalizing bytes' with
  | nil =>
      intro crc _ _
      exact (List.length_eq_zero_iff.mp hlen).symm
  | cons b bs ih =>
      intro crc hw heq
      obtain ⟨b', bs', rfl⟩ := List.exists_cons_of_length_eq_add_one hlen
      rw [List.length_cons] at hw
      rw [List.length_cons, List.length_cons, Nat.add_right_cancel_iff] at hlen
      -- the rest of the burst leaves the top byte of the state behind the first byte
      have hknown : step table crc b >>> (0 + 8 * bs.length)
          = step table crc b' >>> (0 + 8 * bs.length) :=
        shiftRight_foldl_step h hlen (by omega) (congrArg (fun x : BitVec w => x >>> 0) heq)
      have hindex := (step_back h (by omega) hknown).1
      have hb : b = b' := (BitVec.xor_right_inj (crc.setWidth 8)).mp hindex
      subst hb
      rw [ih hlen (by omega) heq]

/-! ## A linear table -/

/-- The entry of a sum is the sum of the entries. -/
def Linear (table : BitVec 8 → BitVec w) : Prop := ∀ i j, table (i ^^^ j) = table i ^^^ table j

/-- Two sums, added up crosswise. -/
theorem xor_xor_xor_comm (a b c d : BitVec w) : a ^^^ b ^^^ (c ^^^ d) = a ^^^ c ^^^ (b ^^^ d) := by
  rw [BitVec.xor_assoc, ← BitVec.xor_assoc b, BitVec.xor_comm b c, BitVec.xor_assoc c,
    ← BitVec.xor_assoc a]

theorem step_xor (h : Linear table) (crc crc' : BitVec w) (byte byte' : BitVec 8) :
    step table (crc ^^^ crc') (byte ^^^ byte') = step table crc byte ^^^ step table crc' byte' := by
  rw [step, BitVec.setWidth_xor, xor_xor_xor_comm, h, BitVec.ushiftRight_xor_distrib,
    xor_xor_xor_comm]
  rfl

/-- **Messages add up** as their states do. -/
theorem foldl_step_xor (h : Linear table) {bytes bytes' : List (BitVec 8)}
    (hlen : bytes'.length = bytes.length) (crc crc' : BitVec w) :
    (List.zipWith (· ^^^ ·) bytes bytes').foldl (step table) (crc ^^^ crc')
      = bytes.foldl (step table) crc ^^^ bytes'.foldl (step table) crc' := by
  induction bytes generalizing bytes' crc crc' with
  | nil =>
      rw [List.length_eq_zero_iff.mp hlen]
      rfl
  | cons b bs ih =>
      obtain ⟨b', bs', rfl⟩ := List.exists_cons_of_length_eq_add_one hlen
      rw [List.length_cons, List.length_cons, Nat.add_right_cancel_iff] at hlen
      rw [List.zipWith_cons_cons, List.foldl_cons, List.foldl_cons, List.foldl_cons, step_xor h,
        ih hlen]

/-! ## Bit by bit -/

section Serial

variable (poly : BitVec w)

/-- One round of the register: the low bit leaves, and takes the polynomial along. -/
def shift (crc : BitVec w) : BitVec w :=
  if crc.getLsbD 0 then (crc >>> 1) ^^^ poly else crc >>> 1

/-- The register takes in one bit of the message. -/
def serialBit (crc : BitVec w) (bit : Bool) : BitVec w :=
  if (crc.getLsbD 0 ^^ bit) then (crc >>> 1) ^^^ poly else crc >>> 1

/-- The bits of a byte in the order in which they are sent: the lowest first. -/
def bits (byte : BitVec 8) : List Bool := (List.range 8).map byte.getLsbD

/-- The register after the eight bits of a byte, one at a time. -/
def serialByte (crc : BitVec w) (byte : BitVec 8) : BitVec w :=
  (bits byte).foldl (serialBit poly) crc

/-- The table of a polynomial: eight rounds of every byte. -/
def tableOf (i : BitVec 8) : BitVec w := (shift poly)^[8] (i.setWidth w)

/-- The polynomial is added where a bit leaves. -/
theorem shift_eq (crc : BitVec w) :
    shift poly crc = (crc >>> 1) ^^^ (if crc.getLsbD 0 then poly else 0#w) := by
  unfold shift
  split
  · rfl
  · rw [BitVec.xor_zero]

theorem shift_xor (crc crc' : BitVec w) :
    shift poly (crc ^^^ crc') = shift poly crc ^^^ shift poly crc' := by
  have hpoly : (if (crc ^^^ crc').getLsbD 0 then poly else 0#w)
      = (if crc.getLsbD 0 then poly else 0#w) ^^^ (if crc'.getLsbD 0 then poly else 0#w) := by
    rw [BitVec.getLsbD_xor]
    -- the polynomial that is added twice is not added
    cases crc.getLsbD 0 <;> cases crc'.getLsbD 0 <;> simp
  rw [shift_eq, shift_eq, shift_eq, BitVec.ushiftRight_xor_distrib, hpoly, xor_xor_xor_comm]

theorem iterate_shift_xor (n : Nat) (crc crc' : BitVec w) :
    (shift poly)^[n] (crc ^^^ crc') = (shift poly)^[n] crc ^^^ (shift poly)^[n] crc' := by
  induction n generalizing crc crc' with
  | zero => rfl
  | succ n ih =>
      rw [Function.iterate_succ_apply, Function.iterate_succ_apply, Function.iterate_succ_apply,
        shift_xor, ih]

theorem tableOf_linear : Linear (tableOf poly) := by
  intro i j
  rw [tableOf, BitVec.setWidth_xor, iterate_shift_xor]
  rfl

/-- A word whose low bits are clear only moves down. -/
theorem iterate_shift_of_clear {crc : BitVec w} {n : Nat}
    (h : ∀ i < n, crc.getLsbD i = false) : (shift poly)^[n] crc = crc >>> n := by
  induction n with
  | zero => exact (BitVec.ushiftRight_zero crc).symm
  | succ n ih =>
      have hlow : (crc >>> n).getLsbD 0 = false := by
        rw [BitVec.getLsbD_ushiftRight]
        exact h n (Nat.lt_succ_self n)
      rw [Function.iterate_succ_apply', ih fun i hi => h i (Nat.lt_succ_of_lt hi), shift, hlow,
        BitVec.shiftRight_add]
      rfl

/-- The bits of a message, as the low bits of a word. -/
def word : List Bool → BitVec w
  | [] => 0#w
  | b :: bs => (BitVec.ofBool b).setWidth w ^^^ (word bs <<< 1)

theorem getLsbD_word (bs : List Bool) {i : Nat} (hi : i < w) :
    (word bs : BitVec w).getLsbD i = bs.getD i false := by
  induction bs generalizing i with
  | nil => simp [word]
  | cons b bs ih =>
      rw [word, BitVec.getLsbD_xor, BitVec.getLsbD_setWidth, BitVec.getLsbD_shiftLeft]
      cases i with
      | zero => simp [hi]
      | succ i =>
          have hofBool : (BitVec.ofBool b).getLsbD (i + 1) = false :=
            BitVec.getLsbD_of_ge _ _ (by omega)
          rw [hofBool, Nat.add_sub_cancel, ih (Nat.lt_of_succ_lt hi)]
          simp [hi]

/-- What comes behind the first bit is one place up, and comes down as that bit is taken in. -/
theorem shift_xor_word (crc : BitVec w) (b : Bool) {bs : List Bool} (h : bs.length < w) :
    shift poly (crc ^^^ word (b :: bs)) = serialBit poly crc b ^^^ word bs := by
  have hfirst : shift poly (crc ^^^ (BitVec.ofBool b).setWidth w) = serialBit poly crc b := by
    have hout : (BitVec.ofBool b).setWidth w >>> 1 = 0#w := by
      refine BitVec.eq_of_getLsbD_eq fun i hi => ?_
      rw [BitVec.getLsbD_ushiftRight, BitVec.getLsbD_setWidth,
        BitVec.getLsbD_of_ge (BitVec.ofBool b) (1 + i) (by omega)]
      simp
    have hlow : (crc ^^^ (BitVec.ofBool b).setWidth w).getLsbD 0 = (crc.getLsbD 0 ^^ b) := by
      rw [BitVec.getLsbD_xor, BitVec.getLsbD_setWidth]
      simp [show 0 < w by omega]
    rw [shift, hlow, BitVec.ushiftRight_xor_distrib, hout, BitVec.xor_zero]
    rfl
  have hrest : shift poly (word bs <<< 1) = word bs := by
    have hlow : ((word bs : BitVec w) <<< 1).getLsbD 0 = false := by simp
    rw [shift, hlow]
    refine BitVec.eq_of_getLsbD_eq fun i hi => ?_
    show ((word bs <<< 1) >>> 1).getLsbD i = _
    rw [BitVec.getLsbD_ushiftRight, BitVec.getLsbD_shiftLeft, Nat.add_sub_cancel_left]
    by_cases htop : 1 + i < w
    · simp [htop]
    · -- there are fewer bits than that
      rw [getLsbD_word bs hi, List.getD_eq_default _ _ (by omega)]
      simp
  rw [word, ← BitVec.xor_assoc, shift_xor, hfirst, hrest]

/-- **The bits may be added all at once**: the rounds behind that are the same. -/
theorem foldl_serialBit (crc : BitVec w) (bs : List Bool) (h : bs.length ≤ w) :
    bs.foldl (serialBit poly) crc = (shift poly)^[bs.length] (crc ^^^ word bs) := by
  induction bs generalizing crc with
  | nil => exact BitVec.xor_zero.symm
  | cons b bs ih =>
      rw [List.length_cons] at h
      rw [List.foldl_cons, ih _ (by omega), List.length_cons, Function.iterate_succ_apply,
        shift_xor_word poly crc b (by omega)]

theorem length_bits (byte : BitVec 8) : (bits byte).length = 8 := by
  rw [bits, List.length_map, List.length_range]

theorem word_bits (byte : BitVec 8) : (word (bits byte) : BitVec w) = byte.setWidth w := by
  refine BitVec.eq_of_getLsbD_eq fun i hi => ?_
  rw [getLsbD_word _ hi, BitVec.getLsbD_setWidth, bits, decide_eq_true hi, Bool.true_and]
  by_cases h8 : i < 8
  · rw [List.getD_eq_getElem _ _ (by simpa using h8), List.getElem_map, List.getElem_range]
  · rw [List.getD_eq_default _ _ (by simpa using h8), BitVec.getLsbD_of_ge _ _ (by omega)]

/-- **A byte is eight bits**: one step of the table is what the register does with them. -/
theorem step_table (hw : 8 ≤ w) (crc : BitVec w) (byte : BitVec 8) :
    step (tableOf poly) crc byte = serialByte poly crc byte := by
  have hbits := foldl_serialBit poly crc (bits byte) (by rw [length_bits]; exact hw)
  rw [length_bits, word_bits] at hbits
  -- the sum is its low byte, which the table knows, and the rest, which only moves down
  have hsplit : crc ^^^ byte.setWidth w
      = (crc.setWidth 8 ^^^ byte).setWidth w ^^^ ((crc >>> 8) <<< 8) := by
    refine BitVec.eq_of_getLsbD_eq fun i hi => ?_
    simp only [BitVec.getLsbD_xor, BitVec.getLsbD_setWidth, BitVec.getLsbD_shiftLeft,
      BitVec.getLsbD_ushiftRight]
    by_cases h8 : i < 8
    · simp [h8, hi]
    · rw [BitVec.getLsbD_of_ge byte i (by omega)]
      simp [h8, hi, show 8 + (i - 8) = i by omega]
  have hclear : ∀ i < 8, ((crc >>> 8) <<< 8).getLsbD i = false := by
    intro i hi
    rw [BitVec.getLsbD_shiftLeft]
    simp [hi]
  have hdown : (crc >>> 8) <<< 8 >>> 8 = crc >>> 8 := by
    refine BitVec.eq_of_getLsbD_eq fun i hi => ?_
    simp only [BitVec.getLsbD_shiftLeft, BitVec.getLsbD_ushiftRight]
    by_cases htop : 8 + i < w
    · simp [htop]
    · rw [BitVec.getLsbD_of_ge crc (8 + i) (by omega)]
      simp [htop]
  rw [serialByte, hbits, hsplit, iterate_shift_xor, iterate_shift_of_clear poly hclear, hdown]
  rfl

end Serial

end KvStore.Lib.TableCrc
