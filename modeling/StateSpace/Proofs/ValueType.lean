import Mathlib.Tactic.Ring
import Mathlib.Tactic.Zify
import StateSpace.ValueType

/-!
# Two's complement

A number and its bits at a type of `n` bits differ by a multiple of `2 ^ n` (`exists_eq_bits_add`),
and the bits are the only number below `2 ^ n` with that property (`bits_eq`). A number fits a type
if wrapping leaves it alone; a number that fits is determined by its bits.
-/

namespace StateSpace.ValueType

variable {t : ValueType} {n k : Nat} {u v : Int}

theorem exists_width_eq_succ (ht : t.width? = some n) : ∃ k, n = k + 1 := by
  match t, ht with
  | signed w, ht => cases w <;> cases ht <;> exact ⟨_, rfl⟩
  | unsigned w, ht => cases w <;> cases ht <;> exact ⟨_, rfl⟩
  | bool, ht => cases ht; exact ⟨0, rfl⟩

theorem width_le (ht : t.width? = some n) : n ≤ 64 := by
  match t, ht with
  | signed w, ht => cases w <;> cases ht <;> decide
  | unsigned w, ht => cases w <;> cases ht <;> decide
  | bool, ht => cases ht; decide

theorem isReal_eq_false_iff : t.isReal = false ↔ ∃ n, t.width? = some n := by
  cases t <;> simp [isReal, width?]

theorem modulus_eq (ht : t.width? = some n) : t.modulus = 2 ^ n := by
  rw [modulus, ht]
  rfl

theorem cast_modulus (ht : t.width? = some n) : (t.modulus : Int) = 2 ^ n := by
  rw [modulus_eq ht]
  push_cast
  rfl

theorem modulus_pos (t : ValueType) : 0 < t.modulus :=
  Nat.two_pow_pos _

/-! ## Bits -/

theorem cast_bits (t : ValueType) (v : Int) : (t.bits v : Int) = v % t.modulus :=
  Int.toNat_of_nonneg (Int.emod_nonneg v (by have := t.modulus_pos; omega))

theorem bits_lt_modulus (t : ValueType) (v : Int) : t.bits v < t.modulus := by
  have hlt := Int.emod_lt_of_pos v (by have := t.modulus_pos; omega : (0 : Int) < t.modulus)
  rw [← cast_bits] at hlt
  exact Int.ofNat_lt.mp hlt

theorem bits_lt (ht : t.width? = some n) (v : Int) : t.bits v < 2 ^ n :=
  modulus_eq ht ▸ t.bits_lt_modulus v

theorem exists_eq_bits_add (ht : t.width? = some n) (v : Int) :
    ∃ c : Int, v = t.bits v + 2 ^ n * c := by
  rw [cast_bits, cast_modulus ht]
  exact ⟨v / 2 ^ n, (Int.emod_add_mul_ediv v _).symm⟩

theorem bits_eq_mod (ht : t.width? = some n) {b : Nat} (c : Int) (h : v = b + 2 ^ n * c) :
    t.bits v = b % 2 ^ n := by
  have hCast := t.cast_bits v
  rw [cast_modulus ht, h, Int.add_mul_emod_self_left] at hCast
  rw [h]
  exact_mod_cast hCast

theorem bits_eq (ht : t.width? = some n) {b : Nat} (hb : b < 2 ^ n) (c : Int)
    (h : v = b + 2 ^ n * c) : t.bits v = b := by
  rw [bits_eq_mod ht c h, Nat.mod_eq_of_lt hb]

theorem bits_natCast (ht : t.width? = some n) (b : Nat) : t.bits b = b % 2 ^ n :=
  bits_eq_mod ht 0 (by ring)

/-! ## Wrapping -/

theorem wrap_emod (t : ValueType) (v : Int) : t.wrap v % t.modulus = v % t.modulus := by
  unfold wrap
  split
  · exact Int.bmod_emod
  · exact Int.emod_emod_of_dvd v (Int.dvd_refl _)

@[simp] theorem bits_wrap (t : ValueType) (v : Int) : t.bits (t.wrap v) = t.bits v := by
  rw [bits, wrap_emod, bits]

theorem wrap_congr (h : t.bits u = t.bits v) : t.wrap u = t.wrap v := by
  have hMod : u % t.modulus = v % t.modulus := by rw [← cast_bits, ← cast_bits, h]
  unfold wrap
  rw [hMod, ← Int.emod_bmod, hMod, Int.emod_bmod]

/-- A number is wrapped to what its bits spell. -/
theorem wrap_bits (t : ValueType) (v : Int) : t.wrap (t.bits v) = t.wrap v := by
  refine wrap_congr ?_
  rw [cast_bits, bits, Int.emod_emod_of_dvd _ (Int.dvd_refl _), bits]

/-- A number in the range of a type. -/
def Fits (t : ValueType) (v : Int) : Prop := t.wrap v = v

instance (t : ValueType) (v : Int) : Decidable (t.Fits v) :=
  inferInstanceAs (Decidable (t.wrap v = v))

theorem fits_wrap (t : ValueType) (v : Int) : t.Fits (t.wrap v) :=
  wrap_congr (t.bits_wrap v)

/-- A number in the range of a type is determined by its bits. -/
theorem Fits.ext (hu : t.Fits u) (hv : t.Fits v) (h : t.bits u = t.bits v) : u = v := by
  rw [← hu, ← hv, wrap_congr h]

/-- The range of a signed type. -/
theorem fits_signed_iff (ht : t.width? = some (k + 1)) (hSigned : t.isSigned = true) :
    t.Fits v ↔ -2 ^ k ≤ v ∧ v < 2 ^ k := by
  have hPow : ((2 ^ (k + 1) : Nat) : Int) = 2 * 2 ^ k := by
    push_cast
    ring
  rw [Fits, wrap, if_pos hSigned, modulus_eq ht]
  constructor
  · intro h
    have hLow := Int.le_bmod (x := v) (Nat.two_pow_pos (k + 1))
    have hHigh := Int.bmod_lt (x := v) (Nat.two_pow_pos (k + 1))
    rw [h, hPow] at hLow hHigh
    omega
  · rintro ⟨hLow, hHigh⟩
    exact Int.bmod_eq_of_le_mul_two (by rw [hPow]; omega) (by rw [hPow]; omega)

/-- The range of an unsigned type. -/
theorem fits_unsigned_iff (ht : t.width? = some n) (hUnsigned : t.isSigned = false) :
    t.Fits v ↔ 0 ≤ v ∧ v < 2 ^ n := by
  have hPos : (0 : Int) < 2 ^ n := Int.pow_pos (by decide)
  rw [Fits, wrap, if_neg (by simp [hUnsigned]), cast_modulus ht]
  constructor
  · intro h
    rw [← h]
    exact ⟨Int.emod_nonneg v hPos.ne', Int.emod_lt_of_pos v hPos⟩
  · rintro ⟨hLow, hHigh⟩
    exact Int.emod_eq_of_lt hLow hHigh

/-- What lies between zero and a number in range is in range. -/
theorem Fits.of_between (hv : t.Fits v) (ht : t.width? = some n)
    (hu : 0 ≤ u ∧ u ≤ v ∨ v ≤ u ∧ u ≤ 0) : t.Fits u := by
  obtain ⟨k, rfl⟩ := exists_width_eq_succ ht
  cases hSigned : t.isSigned with
  | true =>
    have hPos : (0 : Int) < 2 ^ k := Int.pow_pos (by decide)
    rw [fits_signed_iff ht hSigned] at hv ⊢
    omega
  | false =>
    rw [fits_unsigned_iff ht hSigned] at hv ⊢
    omega

/-- The bits of a number that is not negative are the number. -/
theorem Fits.cast_bits_of_nonneg (hv : t.Fits v) (ht : t.width? = some n) (h : 0 ≤ v) :
    (t.bits v : Int) = v := by
  obtain ⟨k, rfl⟩ := exists_width_eq_succ ht
  have hlt : v < 2 ^ (k + 1) := by
    cases hSigned : t.isSigned with
    | true =>
      have := ((fits_signed_iff ht hSigned).mp hv).2
      rw [pow_succ]
      omega
    | false => exact ((fits_unsigned_iff ht hSigned).mp hv).2
  rw [cast_bits, cast_modulus ht, Int.emod_eq_of_lt h hlt]

/-- The bits of a negative number. -/
theorem Fits.cast_bits_of_neg (hv : t.Fits v) (ht : t.width? = some (k + 1)) (h : v < 0) :
    (t.bits v : Int) = v + 2 ^ (k + 1) ∧ -2 ^ k ≤ v := by
  cases hSigned : t.isSigned with
  | true =>
    have hLow := ((fits_signed_iff ht hSigned).mp hv).1
    refine ⟨?_, hLow⟩
    rw [cast_bits, cast_modulus ht, ← Int.add_emod_right, Int.emod_eq_of_lt]
    · rw [pow_succ]
      omega
    · omega
  | false =>
    have := ((fits_unsigned_iff ht hSigned).mp hv).1
    omega

/-- The highest bit of a signed number is its sign. -/
theorem Fits.natAbs_lt (hv : t.Fits v) (ht : t.width? = some n) : v.natAbs < 2 ^ n := by
  obtain ⟨k, rfl⟩ := exists_width_eq_succ ht
  rcases Int.lt_or_le v 0 with hNeg | hPos
  · have hLow := (hv.cast_bits_of_neg ht hNeg).2
    zify
    rw [pow_succ, abs_of_neg hNeg]
    omega
  · have hBits := hv.cast_bits_of_nonneg ht hPos
    have := bits_lt ht v
    omega

/-- The sign bit is set exactly for the negative numbers. -/
theorem Fits.half_le_bits_iff (hv : t.Fits v) (ht : t.width? = some (k + 1))
    (hSigned : t.isSigned = true) : 2 ^ k ≤ t.bits v ↔ v < 0 := by
  have hRange := (fits_signed_iff ht hSigned).mp hv
  rcases Int.lt_or_le v 0 with hNeg | hPos
  · have hBits := (hv.cast_bits_of_neg ht hNeg).1
    zify
    rw [hBits, pow_succ]
    omega
  · have hBits := hv.cast_bits_of_nonneg ht hPos
    zify
    rw [hBits]
    omega

theorem fits_zero (t : ValueType) : t.Fits 0 := by
  unfold Fits wrap
  split <;> simp

theorem Fits.bits_eq_zero_iff (hv : t.Fits v) : t.bits v = 0 ↔ v = 0 := by
  constructor
  · intro h
    exact hv.ext t.fits_zero (by rw [h]; simp [bits])
  · rintro rfl
    simp [bits]

/-! ## Names -/

/-- The names of types are read back in any letter case, so also in their own. -/
theorem ofName?_name (t : ValueType) : ofName? t.name = some t := by
  match t with
  | signed w => cases w <;> decide +kernel
  | unsigned w => cases w <;> decide +kernel
  | bool => decide +kernel
  | real p => cases p <;> decide +kernel

end StateSpace.ValueType
