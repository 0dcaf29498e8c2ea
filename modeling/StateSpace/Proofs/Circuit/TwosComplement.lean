import Mathlib.Tactic.LinearCombination
import StateSpace.Expr.Eval
import StateSpace.Proofs.Circuit.Division
import StateSpace.Proofs.Circuit.Shift
import StateSpace.Proofs.ValueType

/-!
# Circuits and two's complement

The numbers that circuits compute from the bits of two's-complement numbers are the bits of what the
operations of expressions give.
-/

namespace StateSpace

open ValueType Circuit

variable {t : ValueType} {n k : Nat} {u v : Int}

/-! ## Numbers -/

namespace ValueType

theorem bits_add (ht : t.width? = some n) (u v : Int) :
    t.bits (u + v) = (t.bits u + t.bits v) % 2 ^ n := by
  obtain ⟨c, hc⟩ := exists_eq_bits_add ht u
  obtain ⟨d, hd⟩ := exists_eq_bits_add ht v
  refine bits_eq_mod ht (c + d) ?_
  push_cast
  linear_combination hc + hd

theorem bits_mul (ht : t.width? = some n) (u v : Int) :
    t.bits (u * v) = t.bits u * t.bits v % 2 ^ n := by
  obtain ⟨c, hc⟩ := exists_eq_bits_add ht u
  obtain ⟨d, hd⟩ := exists_eq_bits_add ht v
  refine bits_eq_mod ht (t.bits u * d + c * v) ?_
  push_cast
  linear_combination v * hc + t.bits u * hd

theorem bits_neg (ht : t.width? = some n) (v : Int) : t.bits (-v) = negated n (t.bits v) := by
  obtain ⟨c, hc⟩ := exists_eq_bits_add ht v
  have hlt := bits_lt ht v
  refine bits_eq_mod ht (-c - 1) ?_
  push_cast [hlt.le]
  linear_combination -hc

theorem bits_sub (ht : t.width? = some n) (u v : Int) :
    t.bits (u - v) = (t.bits u + (2 ^ n - t.bits v)) % 2 ^ n := by
  rw [Int.sub_eq_add_neg, bits_add ht, bits_neg ht, negated, Nat.add_mod_mod]

theorem bits_neg_sub_one (ht : t.width? = some n) (v : Int) :
    t.bits (-v - 1) = 2 ^ n - 1 - t.bits v := by
  obtain ⟨c, hc⟩ := exists_eq_bits_add ht v
  have hlt := bits_lt ht v
  refine bits_eq ht (by omega) (-c - 1) ?_
  have hCast : ((2 ^ n - 1 - t.bits v : Nat) : Int) = 2 ^ n - 1 - t.bits v := by
    zify [show 1 ≤ 2 ^ n from Nat.one_le_two_pow, show t.bits v ≤ 2 ^ n - 1 by omega]
  rw [hCast]
  linear_combination -hc

theorem bits_neg_one (ht : t.width? = some n) : t.bits (-1) = 2 ^ n - 1 := by
  simpa [bits] using bits_neg_sub_one ht 0

/-- Exchanging the halves of the range turns the order of the bits into the signed order. -/
theorem Fits.cast_swapHalves (hv : t.Fits v) (ht : t.width? = some (k + 1))
    (hSigned : t.isSigned = true) : (swapHalves k (t.bits v) : Int) = v + 2 ^ k := by
  have hHalf := hv.half_le_bits_iff ht hSigned
  unfold swapHalves
  split
  · next h =>
    have hBits := (hv.cast_bits_of_neg ht (hHalf.mp h)).1
    push_cast [h]
    rw [hBits]
    ring
  · next h =>
    have hBits := hv.cast_bits_of_nonneg ht (Int.not_lt.mp (mt hHalf.mpr h))
    push_cast
    rw [hBits]

/-- The magnitude of the bits is that of the number. -/
theorem Fits.magnitude_bits (hv : t.Fits v) (ht : t.width? = some (k + 1))
    (hSigned : t.isSigned = true) : magnitude k (t.bits v) = v.natAbs := by
  have hHalf := hv.half_le_bits_iff ht hSigned
  unfold magnitude
  rcases Int.lt_or_le v 0 with hNeg | hPos
  · have hLow := (hv.cast_bits_of_neg ht hNeg).2
    have hCast : ((2 ^ k : Nat) : Int) = 2 ^ k := by push_cast; rfl
    rw [if_pos (by simpa using hHalf.mpr hNeg), ← bits_neg ht]
    refine bits_eq ht ?_ 0 (by omega)
    rw [Nat.pow_succ]
    omega
  · have hBits := hv.cast_bits_of_nonneg ht hPos
    rw [if_neg (by simpa using mt hHalf.mp (Int.not_lt.mpr hPos))]
    omega

/-- Truncated division by way of the magnitudes. -/
theorem tdiv_eq_of_natAbs (u v : Int) : u.tdiv v =
    if decide (u < 0) ^^ decide (v < 0) then -((u.natAbs / v.natAbs : Nat) : Int)
    else ((u.natAbs / v.natAbs : Nat) : Int) := by
  rw [Int.ofNat_tdiv]
  rcases Int.lt_or_le u 0 with hu | hu <;> rcases Int.lt_or_le v 0 with hv | hv
  · simp [hu, hv, abs_of_neg]
  · simp [hu, hv, abs_of_neg, abs_of_nonneg, Int.not_lt.mpr]
  · simp [hu, hv, abs_of_neg, abs_of_nonneg, Int.not_lt.mpr]
  · simp [hu, hv, abs_of_nonneg, Int.not_lt.mpr]

/-- The remainder by way of the magnitudes. -/
theorem tmod_eq_of_natAbs (u v : Int) : u.tmod v =
    if u < 0 then -((u.natAbs % v.natAbs : Nat) : Int)
    else ((u.natAbs % v.natAbs : Nat) : Int) := by
  rw [Int.ofNat_tmod]
  rcases Int.lt_or_le u 0 with hu | hu <;> rcases Int.lt_or_le v 0 with hv | hv
  · simp [hu, hv, abs_of_neg]
  · simp [hu, hv, abs_of_neg, abs_of_nonneg]
  · simp [hu, hv, abs_of_neg, abs_of_nonneg, Int.not_lt.mpr]
  · simp [hu, hv, abs_of_nonneg, Int.not_lt.mpr]

/-- A magnitude with its sign put back. -/
theorem bits_signed (ht : t.width? = some n) {b : Nat} (hb : b < 2 ^ n) (c : Bool) :
    (if c then negated n b else b) = t.bits (if c then -(b : Int) else b) := by
  have hBits : t.bits (b : Int) = b := by rw [bits_natCast ht, Nat.mod_eq_of_lt hb]
  cases c
  · exact hBits.symm
  · simp [bits_neg ht, hBits]

/-- Signed division of bits is division of numbers. -/
theorem Fits.signedQuotient_bits (hu : t.Fits u) (hv : t.Fits v) (ht : t.width? = some (k + 1))
    (hSigned : t.isSigned = true) :
    signedQuotient k (t.bits u) (t.bits v) = t.bits (Arithmetic.div.eval t u v) := by
  have hsu := hu.half_le_bits_iff ht hSigned
  have hsv := hv.half_le_bits_iff ht hSigned
  simp only [signedQuotient, hu.magnitude_bits ht hSigned, hv.magnitude_bits ht hSigned, hsu, hsv,
    Arithmetic.eval]
  by_cases hZero : v = 0
  · -- all ones, which is one where the sign is changed
    simp only [hZero, Int.natAbs_zero, quotient, if_true, Int.lt_irrefl, decide_false,
      Bool.xor_false, decide_eq_true_eq]
    split
    · have hNeg := bits_neg ht (-1)
      rw [bits_neg_one ht] at hNeg
      exact hNeg.symm
    · rw [bits_wrap, bits_neg_one ht]
  · have hne : v.natAbs ≠ 0 := Int.natAbs_ne_zero.mpr hZero
    have hlt : u.natAbs / v.natAbs < 2 ^ (k + 1) :=
      Nat.lt_of_le_of_lt (Nat.div_le_self _ _) (hu.natAbs_lt ht)
    simp only [quotient, if_neg hne, if_neg hZero, bits_wrap]
    rw [bits_signed ht hlt, tdiv_eq_of_natAbs]

theorem rem_eval_eq_tmod (t : ValueType) (u v : Int) :
    Arithmetic.rem.eval t u v = u.tmod v := by
  simp only [Arithmetic.eval]
  split
  · next h => rw [h, Int.tmod_zero]
  · rfl

theorem Fits.signedRemainder_bits (hu : t.Fits u) (hv : t.Fits v) (ht : t.width? = some (k + 1))
    (hSigned : t.isSigned = true) :
    signedRemainder k (t.bits u) (t.bits v) = t.bits (Arithmetic.rem.eval t u v) := by
  have hsu := hu.half_le_bits_iff ht hSigned
  have hlt : u.natAbs % v.natAbs < 2 ^ (k + 1) :=
    Nat.lt_of_le_of_lt (Nat.mod_le _ _) (hu.natAbs_lt ht)
  simp only [signedRemainder, hu.magnitude_bits ht hSigned, hv.magnitude_bits ht hSigned, hsu]
  rw [bits_signed ht hlt, rem_eval_eq_tmod, tmod_eq_of_natAbs]
  simp only [decide_eq_true_eq]

/-- Unsigned division of bits is division of numbers. -/
theorem Fits.quotient_bits (hu : t.Fits u) (hv : t.Fits v) (ht : t.width? = some n)
    (hUnsigned : t.isSigned = false) :
    quotient n (t.bits u) (t.bits v) = t.bits (Arithmetic.div.eval t u v) := by
  have hu0 := ((fits_unsigned_iff ht hUnsigned).mp hu).1
  have hv0 := ((fits_unsigned_iff ht hUnsigned).mp hv).1
  simp only [quotient, hv.bits_eq_zero_iff, Arithmetic.eval, Int.not_lt.mpr hu0, if_false]
  split
  · rw [bits_wrap, bits_neg_one ht]
  · have hlt : t.bits u / t.bits v < 2 ^ n :=
      Nat.lt_of_le_of_lt (Nat.div_le_self _ _) (bits_lt ht u)
    nth_rewrite 2 [← hu.cast_bits_of_nonneg ht hu0, ← hv.cast_bits_of_nonneg ht hv0]
    rw [bits_wrap, ← Int.ofNat_tdiv, bits_natCast ht, Nat.mod_eq_of_lt hlt]

/-- The remainder of the bits is that of the numbers. -/
theorem Fits.remainder_bits (hu : t.Fits u) (hv : t.Fits v) (ht : t.width? = some n)
    (hUnsigned : t.isSigned = false) :
    t.bits u % t.bits v = t.bits (Arithmetic.rem.eval t u v) := by
  have hu0 := ((fits_unsigned_iff ht hUnsigned).mp hu).1
  have hv0 := ((fits_unsigned_iff ht hUnsigned).mp hv).1
  have hlt : t.bits u % t.bits v < 2 ^ n :=
    Nat.lt_of_le_of_lt (Nat.mod_le _ _) (bits_lt ht u)
  rw [rem_eval_eq_tmod]
  nth_rewrite 2 [← hu.cast_bits_of_nonneg ht hu0, ← hv.cast_bits_of_nonneg ht hv0]
  rw [← Int.ofNat_tmod, bits_natCast ht, Nat.mod_eq_of_lt hlt]

/-- Copies of the sign bit on top of the bits keep the number. -/
theorem Fits.cast_extended (hv : t.Fits v) (ht : t.width? = some n) {b : Bool}
    (hb : b = true ↔ v < 0) (j : Nat) :
    (extended n b j (t.bits v) : Int) = v + 2 ^ (n + j) * b.toNat := by
  have hPos : 1 ≤ 2 ^ j := Nat.one_le_two_pow
  obtain ⟨k, rfl⟩ := exists_width_eq_succ ht
  cases b with
  | false =>
    have hBits := hv.cast_bits_of_nonneg ht (by simpa using hb)
    simp [extended, hBits]
  | true =>
    have hBits := (hv.cast_bits_of_neg ht (hb.mp rfl)).1
    simp only [extended, if_true, Bool.toNat_true]
    push_cast [hPos]
    rw [hBits]
    ring

/-- A move to the right that fills up with the sign divides. -/
theorem Fits.extended_div (hv : t.Fits v) (ht : t.width? = some n) {b : Bool}
    (hb : b = true ↔ v < 0) (j : Nat) :
    extended n b j (t.bits v) / 2 ^ j = t.bits (v / 2 ^ j) := by
  have hCast := hv.cast_extended ht hb j
  have hlt : extended n b j (t.bits v) < 2 ^ n * 2 ^ j := by
    have hAbs := hv.natAbs_lt ht
    have hle : 2 ^ n * 1 ≤ 2 ^ n * 2 ^ j := Nat.mul_le_mul_left _ Nat.one_le_two_pow
    zify at hAbs hle ⊢
    rw [hCast, pow_add]
    cases b with
    | false =>
      have := abs_of_nonneg (show 0 ≤ v by simpa using hb)
      simp
      omega
    | true =>
      have := hb.mp rfl
      simp
      omega
  refine (bits_eq ht (Nat.div_lt_of_lt_mul (by rwa [Nat.mul_comm])) (-b.toNat) ?_).symm
  push_cast
  rw [hCast, pow_add, Int.mul_comm (2 ^ n), Int.mul_assoc,
    Int.add_mul_ediv_left _ _ (by simp : (2 : Int) ^ j ≠ 0)]
  ring

/-- Bringing the bits to another width keeps the number as far as the width allows. -/
theorem Fits.extended_mod {t' : ValueType} (hv : t.Fits v) (ht : t.width? = some n)
    (ht' : t'.width? = some k) {b : Bool} (hb : b = true ↔ v < 0) :
    extended n b (k - n) (t.bits v) % 2 ^ k = t'.bits v := by
  refine (bits_eq_mod ht' (-(2 ^ (n - k) * b.toNat)) ?_).symm
  rw [hv.cast_extended ht hb, show n + (k - n) = k + (n - k) by omega, pow_add]
  ring

end ValueType

/-- Arithmetic stays in the range of its type. -/
theorem Arithmetic.fits_eval (op : Arithmetic) {a b : Int} (ht : t.width? = some n)
    (ha : t.Fits a) : t.Fits (op.eval t a b) := by
  cases op with
  | add => exact t.fits_wrap _
  | sub => exact t.fits_wrap _
  | mul => exact t.fits_wrap _
  | div =>
    simp only [Arithmetic.eval]
    split
    · split
      · next hNeg =>
        -- only signed types have negative numbers, and they are wide enough for one
        match t, ht with
        | .signed w, _ => cases w <;> decide
        | .unsigned w, ht => exact absurd ((fits_unsigned_iff ht rfl).mp ha).1 (by omega)
        | .bool, ht => exact absurd ((fits_unsigned_iff ht rfl).mp ha).1 (by omega)
      · exact t.fits_wrap _
    · exact t.fits_wrap _
  | rem =>
    have hle := Nat.mod_le a.natAbs b.natAbs
    rw [rem_eval_eq_tmod]
    refine ha.of_between ht ?_
    rw [tmod_eq_of_natAbs]
    split <;> omega

end StateSpace
