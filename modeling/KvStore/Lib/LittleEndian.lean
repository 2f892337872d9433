import Mathlib.Data.Nat.Bitwise
import Mathlib.Tactic.Ring

/-!
# Fixed-width little-endian numbers

A number written as exactly `k` bytes, least significant first, and read back.
The two directions are inverse to each other on `k` bytes, so a fixed-width
field neither loses a number nor admits two spellings of one.

Programs assemble such a field with shifts and ors rather than with sums.
`ofLE_concat` is the step that turns the one into the other: a byte shifted past
everything already read shares no bit with it.
-/

namespace KvStore.Lib

/-- The `k` low bytes of `n`, least significant first. -/
def toLE : Nat → Nat → List UInt8
  | 0, _ => []
  | k + 1, n => UInt8.ofNat n :: toLE k (n / 256)

/-- The number a byte string spells, least significant byte first. -/
def ofLE : List UInt8 → Nat
  | [] => 0
  | b :: bs => b.toNat + 256 * ofLE bs

@[simp] theorem length_toLE (k n : Nat) : (toLE k n).length = k := by
  induction k generalizing n with
  | zero => rfl
  | succ k ih => rw [toLE, List.length_cons, ih]

theorem ofLE_lt (bs : List UInt8) : ofLE bs < 256 ^ bs.length := by
  induction bs with
  | nil => exact Nat.one_pos
  | cons b bs ih =>
      have hb := b.toNat_lt
      rw [ofLE, List.length_cons, Nat.pow_succ]
      omega

/-- Reading back what was written. -/
theorem ofLE_toLE {k n : Nat} (h : n < 256 ^ k) : ofLE (toLE k n) = n := by
  induction k generalizing n with
  | zero =>
      have : n = 0 := by simpa using h
      rw [this]; rfl
  | succ k ih =>
      rw [Nat.pow_succ] at h
      rw [toLE, ofLE, ih (by omega), UInt8.toNat_ofNat']
      omega

/-- Writing back what was read. -/
theorem toLE_ofLE (bs : List UInt8) : toLE bs.length (ofLE bs) = bs := by
  induction bs with
  | nil => rfl
  | cons b bs ih =>
      have hb := b.toNat_lt
      have hhead : UInt8.ofNat (b.toNat + 256 * ofLE bs) = b := by
        apply UInt8.toNat_inj.mp
        rw [UInt8.toNat_ofNat']
        omega
      have htail : (b.toNat + 256 * ofLE bs) / 256 = ofLE bs := by omega
      rw [List.length_cons, ofLE, toLE, hhead, htail, ih]

theorem ofLE_append (bs cs : List UInt8) :
    ofLE (bs ++ cs) = ofLE bs + 256 ^ bs.length * ofLE cs := by
  induction bs with
  | nil => simp [ofLE]
  | cons b bs ih =>
      rw [List.cons_append, ofLE, ofLE, ih, List.length_cons]
      ring

/-- One more byte is one more or, shifted past the bytes already there. -/
theorem ofLE_concat (bs : List UInt8) (b : UInt8) :
    ofLE (bs ++ [b]) = ofLE bs ||| b.toNat <<< (8 * bs.length) := by
  have hlt : ofLE bs < 2 ^ (8 * bs.length) := by
    rw [Nat.pow_mul]; exact ofLE_lt bs
  rw [ofLE_append, Nat.lor_comm, ← Nat.shiftLeft_add_eq_or_of_lt hlt, Nat.shiftLeft_eq, Nat.pow_mul]
  simp only [ofLE]
  ring

end KvStore.Lib
