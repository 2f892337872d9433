import Mathlib.Data.List.TakeWhile

/-!
# Decimal numerals

Natural numbers as the bytes of their decimal digits, most significant first, and
back. The reader takes any list of bytes; it is only meant for digits.
-/

namespace KvStore.Lib

/-- The byte is one of `0` to `9`. -/
def isDigit (b : UInt8) : Bool := 48 ≤ b && b ≤ 57

/-- The digits of `n`, when `n < fuel`. -/
def decimalUpTo : Nat → Nat → List UInt8
  | 0, _ => []
  | fuel + 1, n =>
      if n < 10 then [UInt8.ofNat (48 + n)]
      else decimalUpTo fuel (n / 10) ++ [UInt8.ofNat (48 + n % 10)]

/-- The numeral of a number, without leading zeros. -/
def toDecimal (n : Nat) : List UInt8 := decimalUpTo (n + 1) n

/-- The number that digits stand for. -/
def ofDecimal (digits : List UInt8) : Nat := digits.foldl (fun n d => 10 * n + (d.toNat - 48)) 0

theorem ofDecimal_concat (digits : List UInt8) (d : UInt8) :
    ofDecimal (digits ++ [d]) = 10 * ofDecimal digits + (d.toNat - 48) := by
  rw [ofDecimal, List.foldl_append]; rfl

private theorem toNat_digit {k : Nat} (h : k < 10) : (UInt8.ofNat (48 + k)).toNat = 48 + k := by
  rw [UInt8.toNat_ofNat']
  omega

theorem isDigit_digit {k : Nat} (h : k < 10) : isDigit (UInt8.ofNat (48 + k)) = true := by
  have hk := toNat_digit h
  simp only [isDigit, Bool.and_eq_true, decide_eq_true_eq, UInt8.le_iff_toNat_le, hk]
  exact ⟨Nat.le_add_right _ _, by show 48 + k ≤ 57; omega⟩

theorem ofDecimal_decimalUpTo {fuel n : Nat} (h : n < fuel) :
    ofDecimal (decimalUpTo fuel n) = n := by
  induction fuel generalizing n with
  | zero => exact absurd h (Nat.not_lt_zero n)
  | succ fuel ih =>
      rw [decimalUpTo]
      split
      · rename_i hn
        show 10 * 0 + ((UInt8.ofNat (48 + n)).toNat - 48) = n
        rw [toNat_digit hn]
        omega
      · rw [ofDecimal_concat, ih (by omega), toNat_digit (Nat.mod_lt n (by omega))]
        omega

theorem decimalUpTo_digits (fuel n : Nat) : ∀ d ∈ decimalUpTo fuel n, isDigit d = true := by
  induction fuel generalizing n with
  | zero => intro d hd; exact absurd hd List.not_mem_nil
  | succ fuel ih =>
      intro d hd
      rw [decimalUpTo] at hd
      split at hd
      · rename_i hn
        rcases List.mem_singleton.mp hd with rfl
        exact isDigit_digit hn
      · rcases List.mem_append.mp hd with hd | hd
        · exact ih _ d hd
        · rcases List.mem_singleton.mp hd with rfl
          exact isDigit_digit (Nat.mod_lt n (by omega))

/-- **A numeral reads back as the number it was written for.** -/
@[simp] theorem ofDecimal_toDecimal (n : Nat) : ofDecimal (toDecimal n) = n :=
  ofDecimal_decimalUpTo (Nat.lt_succ_self n)

theorem toDecimal_digits (n : Nat) : ∀ d ∈ toDecimal n, isDigit d = true :=
  decimalUpTo_digits _ _

theorem toDecimal_ne_nil (n : Nat) : toDecimal n ≠ [] := by
  rw [toDecimal, decimalUpTo]
  split
  · exact List.cons_ne_nil _ _
  · simp

theorem toDecimal_cons (n : Nat) : ∃ d ds, toDecimal n = d :: ds ∧ isDigit d = true := by
  cases hn : toDecimal n with
  | nil => exact absurd hn (toDecimal_ne_nil n)
  | cons d ds => exact ⟨d, ds, rfl, toDecimal_digits n d (by rw [hn]; exact List.mem_cons_self ..)⟩

/-- A byte that is not a digit does not occur in a numeral. -/
theorem not_mem_toDecimal {b : UInt8} (h : isDigit b = false) (n : Nat) : b ∉ toDecimal n := by
  intro hb
  rw [toDecimal_digits n b hb] at h
  exact absurd h (by simp)

theorem takeWhile_toDecimal (n : Nat) : (toDecimal n).takeWhile isDigit = toDecimal n :=
  List.takeWhile_eq_self_iff.mpr (toDecimal_digits n)

end KvStore.Lib
